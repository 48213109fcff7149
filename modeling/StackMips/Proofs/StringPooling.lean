import Mathlib.Data.List.Induction
import Mathlib.Data.List.Infix
import Mathlib.Order.Nat
import StackMips.Proofs.LabelClosure
import StackMips.Proofs.Lines

/-!
# The string pool of an assembly

The literals of a program are stored where code generation first meets them.  So the pool holds each
text once, in the order in which the texts first occur in the source, and the code of a literal
loads the address of a text that has been stored before.
-/

namespace StackMips

open Mips

/-! ## Texts in order of their first occurrence -/

namespace StringPool

def texts (pool : StringPool) : List String := pool.entries.map Prod.snd

def meet (known : List String) (text : String) : List String :=
  if text ∈ known then known else known ++ [text]

theorem foldl_meet (texts : List String) : texts.foldl meet [] = texts.eraseDups := by
  induction texts using List.reverseRecOn with
  | nil => rfl
  | append_singleton texts text ih =>
      rw [List.foldl_append, ih, List.eraseDups_append, List.foldl_cons, List.foldl_nil, meet]
      by_cases h : text ∈ texts
      · simp [h, List.removeAll]
      · simp [h, List.removeAll, List.eraseDups_cons]

theorem lookup_eq_none_iff {pool : StringPool} {text : String} :
    pool.lookup text = none ↔ text ∉ pool.texts := by
  rw [lookup, Option.map_eq_none_iff, List.find?_eq_none, texts, List.mem_map]
  constructor
  · rintro h ⟨entry, hentry, rfl⟩
    exact h entry (List.mem_reverse.mpr hentry) (beq_self_eq_true _)
  · intro h entry hentry heq
    exact h ⟨entry, List.mem_reverse.mp hentry, beq_iff_eq.mp heq⟩

theorem mem_of_lookup {pool : StringPool} {text label : String}
    (h : pool.lookup text = some label) : (label, text) ∈ pool.entries := by
  obtain ⟨entry, hfind, rfl⟩ := Option.map_eq_some_iff.mp h
  have htext : entry.2 = text := by simpa using List.find?_some hfind
  have hmem := List.mem_of_find?_eq_some hfind
  rw [← htext]
  simpa using hmem

/-- The labels of the pool were taken from a counter, one after the other, that has reached this
number. -/
def IsNumbered (pool : StringPool) (count : Nat) : Prop :=
  ∃ numbers : List Nat, pool.entries.map Prod.fst = numbers.map Context.synthetic ∧
    numbers.Pairwise (· < ·) ∧ ∀ n ∈ numbers, n < count

theorem IsNumbered.mono {pool : StringPool} {m n : Nat} (h : pool.IsNumbered m) (hle : m ≤ n) :
    pool.IsNumbered n := by
  obtain ⟨numbers, hlabels, hordered, hlt⟩ := h
  exact ⟨numbers, hlabels, hordered, fun k hk => (hlt k hk).trans_le hle⟩

theorem IsNumbered.insert {pool : StringPool} {n : Nat} (h : pool.IsNumbered n) (text : String) :
    (pool.insert text (Context.synthetic n)).IsNumbered (n + 1) := by
  obtain ⟨numbers, hlabels, hordered, hlt⟩ := h
  refine ⟨numbers ++ [n], by simp [StringPool.insert, hlabels], ?_, fun k hk => ?_⟩
  · rw [List.pairwise_append]
    exact ⟨hordered, List.pairwise_singleton _ _, fun k hk m hm =>
      List.mem_singleton.mp hm ▸ hlt k hk⟩
  · rcases List.mem_append.mp hk with hk | hk
    · exact (hlt k hk).trans (Nat.lt_succ_self n)
    · exact List.mem_singleton.mp hk ▸ Nat.lt_succ_self n

theorem IsNumbered.nodup {pool : StringPool} {n : Nat} (h : pool.IsNumbered n) :
    (pool.entries.map Prod.fst).Nodup := by
  obtain ⟨numbers, hlabels, hordered, -⟩ := h
  rw [hlabels]
  exact List.Nodup.map Context.synthetic_injective (hordered.imp Nat.ne_of_lt)

theorem IsNumbered.lookup {pool : StringPool} {n : Nat} (h : pool.IsNumbered n) {label : Label}
    {text : String} (hentry : (label, text) ∈ pool.entries) :
    pool.entries.lookup label = some text := by
  obtain ⟨before, behind, hsplit⟩ := List.mem_iff_append.mp hentry
  refine List.lookup_eq_some_iff.mpr ⟨before, behind, hsplit, fun entry hbefore => ?_⟩
  have hnodup := h.nodup
  rw [hsplit, List.map_append, List.nodup_append] at hnodup
  exact bne_iff_ne.mpr
    (hnodup.2.2 entry.1 (List.mem_map_of_mem hbefore) label (by simp)).symm

theorem IsNumbered.ne_globalLabel {pool : StringPool} {n : Nat} (h : pool.IsNumbered n)
    {entry : Label × String} (hentry : entry ∈ pool.entries) (name : String) :
    entry.1 ≠ globalLabel name := by
  obtain ⟨numbers, hlabels, -⟩ := h
  have hmem : entry.1 ∈ numbers.map Context.synthetic := hlabels ▸ List.mem_map_of_mem hentry
  obtain ⟨k, -, hk⟩ := List.mem_map.mp hmem
  intro hglobal
  have hsynthetic := Context.isSynthetic_synthetic k
  rw [hk, hglobal] at hsynthetic
  simp [isSynthetic, globalLabel] at hsynthetic

end StringPool

/-! ## Lines and what stands around them -/

namespace Mips.Line

def storing (entry : Label × String) : Line :=
  .label entry.1 (some { operation := .asciiz entry.2 })

/-- The text whose address the line loads, by the labels of these entries. -/
def quoted? (entries : List (Label × String)) (line : Line) : Option String :=
  line.loaded?.bind fun label => entries.lookup label

/-- A line that stores a text stands between a switch to the data region and one back. -/
def Enclosed (before : List Line) (line : Line) (behind : List Line) : Prop :=
  line.isAsciiz → before.getLast? = some (.region .data) ∧ behind.head? = some (.region .text)

/-- A line that loads the address of anything but a variable stands behind the line that stores the
text there, unless this text was known before. -/
def Anchored (known : List (Label × String)) (before : List Line) (line : Line) : Prop :=
  ∀ label, line.loaded? = some label → (∃ name, label = globalLabel name) ∨
    ∃ text, (label, text) ∈ known ∨ storing (label, text) ∈ before

end Mips.Line

/-! ## What a script does to the pool -/

namespace Context

def loading (c : Context) (text : String) : List Line :=
  Script.lines [c.opWith (.la .t0 (.label (c.stringLabel text))) "load addr into $t0", .push .t0]

theorem isAsciiz_loading (c : Context) (text : String) :
    ∀ line ∈ c.loading text, line.isAsciiz = false := by
  simp [loading, Script.lines, Action.lines, opWith, Line.isAsciiz, Line.instr?,
    Operation.mnemonic, AluOp.mnemonic]

theorem loaded?_loading (c : Context) (text : String) : ∀ line ∈ c.loading text,
    ∀ label, line.loaded? = some label → label = c.stringLabel text := by
  simp [loading, Script.lines, Action.lines, opWith, Line.loaded?, Line.instr?,
    Operation.loaded?]

theorem filterMap_loading (c : Context) (text : String) (entries : List (Label × String)) :
    (c.loading text).filterMap (Line.quoted? entries) =
      (entries.lookup (c.stringLabel text)).toList := by
  cases hlookup : entries.lookup (c.stringLabel text) <;>
    simp [loading, Script.lines, Action.lines, opWith, Line.quoted?, Line.loaded?, Line.instr?,
      Operation.loaded?, hlookup]

theorem lines_string (c : Context) (text : String) :
    (c.string text).lines = (c.pooling text).lines ++ c.loading text :=
  Script.lines_append _ _

theorem after_string (c : Context) (text : String) :
    c.after (c.string text) = c.after (c.pooling text) := by
  rw [string, after_append]
  rfl

theorem mem_entries_string (c : Context) (text : String) :
    (c.stringLabel text, text) ∈ (c.after (c.string text)).strings.entries := by
  rw [after_string]
  exact StringPool.mem_of_lookup (c.lookup_after_pooling text)

/-- A text that is known is not stored again; any other gets the next label. -/
theorem string_cases (c : Context) (text : String) :
    text ∈ c.strings.texts ∧ c.after (c.string text) = c ∧ (c.string text).lines = c.loading text ∨
    text ∉ c.strings.texts ∧
      c.stringLabel text = synthetic c.labels ∧
      (c.after (c.string text)).strings = c.strings.insert text (synthetic c.labels) ∧
      (c.after (c.string text)).labels = c.labels + 1 ∧
      (c.string text).lines = [.region .data, Line.storing (synthetic c.labels, text),
        .region .text] ++ c.loading text := by
  rw [lines_string, after_string, pooling]
  cases hlookup : c.strings.lookup text with
  | some label =>
      have hknown : text ∈ c.strings.texts := by
        by_contra hnew
        rw [StringPool.lookup_eq_none_iff.mpr hnew] at hlookup
        cases hlookup
      exact .inl ⟨hknown, rfl, rfl⟩
  | none =>
      have hlabel : c.stringLabel text = synthetic c.labels := by rw [stringLabel, hlookup]; rfl
      exact .inr ⟨StringPool.lookup_eq_none_iff.mp hlookup, hlabel, rfl, rfl, rfl⟩

end Context

namespace Script.Quotes

variable {c : Context} {script : Script} {texts : List String}

/-- The entries that a script adds are those that its lines store. -/
theorem stored (h : script.Quotes c texts) : ∃ added,
    (c.after script).strings.entries = c.strings.entries ++ added ∧
      script.lines.filter Line.isAsciiz = added.map Line.storing := by
  induction h with
  | nil => exact ⟨[], by simp, rfl⟩
  | append _ _ iha ihb =>
      obtain ⟨added, hentries, hlines⟩ := iha
      obtain ⟨added', hentries', hlines'⟩ := ihb
      exact ⟨added ++ added', by simp [hentries', hentries], by simp [hlines, hlines']⟩
  | @step c action h =>
      refine ⟨[], by simp [Action.context_of_isPlain h], ?_⟩
      simpa [Script.lines] using fun line hline =>
        Line.isAsciiz_of_isPlain (Action.lines_of_isPlain h line hline)
  | mint | global _ => exact ⟨[], by simp, rfl⟩
  | @literal c text =>
      rcases c.string_cases text with ⟨-, hafter, hlines⟩ | ⟨-, -, hstrings, -, hlines⟩
      · exact ⟨[], by simp [hafter], by rw [hlines]; rfl⟩
      · exact ⟨[_], by rw [hstrings]; rfl, by rw [hlines]; rfl⟩

/-- A script adds the texts that it meets and that are not known. -/
theorem texts_after (h : script.Quotes c texts) :
    (c.after script).strings.texts = texts.foldl StringPool.meet c.strings.texts := by
  induction h with
  | nil | mint | global _ => rfl
  | append _ _ iha ihb => rw [Context.after_append, ihb, iha, List.foldl_append]
  | @step c action h => simp [Action.context_of_isPlain h]
  | @literal c text =>
      rw [List.foldl_cons, List.foldl_nil, StringPool.meet]
      rcases c.string_cases text with ⟨hknown, hafter, -⟩ | ⟨hnew, -, hstrings, -⟩
      · rw [hafter, if_pos hknown]
      · rw [hstrings, if_neg hnew]
        simp [StringPool.texts, StringPool.insert]

theorem isNumbered (h : script.Quotes c texts) (hc : c.strings.IsNumbered c.labels) :
    (c.after script).strings.IsNumbered (c.after script).labels := by
  induction h with
  | nil | global _ => exact hc
  | append _ _ iha ihb =>
      rw [Context.after_append]
      exact ihb (iha hc)
  | @step c action h => simpa [Action.context_of_isPlain h] using hc
  | mint => exact hc.mono (Nat.le_succ _)
  | @literal c text =>
      rcases c.string_cases text with ⟨-, hafter, -⟩ | ⟨-, -, hstrings, hlabels, -⟩
      · rwa [hafter]
      · rw [hstrings, hlabels]
        exact hc.insert text

theorem enclosed (h : script.Quotes c texts) : Line.AtEach Line.Enclosed script.lines := by
  induction h with
  | nil | mint => exact Line.atEach_nil
  | append _ _ iha ihb =>
      rw [Script.lines_append]
      refine Line.atEach_append (iha.mono ?_) (ihb.mono ?_)
      · intro before line behind h hline
        obtain ⟨hbefore, hbehind⟩ := h hline
        exact ⟨hbefore, by simp [List.head?_append, hbehind]⟩
      · intro before line behind h hline
        obtain ⟨hbefore, hbehind⟩ := h hline
        exact ⟨by simp [List.getLast?_append, hbefore], hbehind⟩
  | @step c action h =>
      refine Line.atEach_of_forall fun line hline before behind hasciiz => ?_
      have hplain := Action.lines_of_isPlain h line (by simpa [Script.lines] using hline)
      simp [Line.isAsciiz_of_isPlain hplain] at hasciiz
  | global name =>
      refine Line.atEach_of_forall fun line hline before behind hasciiz => ?_
      obtain rfl := List.mem_singleton.mp hline
      cases hasciiz
  | @literal c text =>
      have hloading : ∀ before, Line.AtEach (fun before' => Line.Enclosed (before ++ before'))
          (c.loading text) := fun before => Line.atEach_of_forall fun line hline _ _ hasciiz => by
        simp [c.isAsciiz_loading text line hline] at hasciiz
      rcases c.string_cases text with ⟨-, -, hlines⟩ | ⟨-, -, -, -, hlines⟩
      · rw [hlines]
        exact hloading []
      · rw [hlines]
        refine Line.atEach_append (Line.atEach_cons ?_ (Line.atEach_cons ?_ (Line.atEach_cons ?_
          Line.atEach_nil))) (hloading _)
        · rintro ⟨⟩
        · exact fun _ => ⟨rfl, rfl⟩
        · rintro ⟨⟩

/-- Texts are stored before their addresses are loaded. -/
theorem anchored (h : script.Quotes c texts) :
    Line.AtEach (fun before line _ => Line.Anchored c.strings.entries before line)
      script.lines := by
  induction h with
  | nil | mint => exact Line.atEach_nil
  | @append c a b _ _ ha _ iha ihb =>
      rw [Script.lines_append]
      refine Line.atEach_append iha (ihb.mono ?_)
      intro before line _ h label hlabel
      refine (h label hlabel).imp_right ?_
      rintro ⟨text, htext⟩
      refine ⟨text, ?_⟩
      obtain ⟨added, hentries, hadded⟩ := ha.stored
      rw [hentries, List.mem_append, or_assoc] at htext
      refine htext.imp_right ?_
      rw [List.mem_append]
      refine Or.imp_left fun htext => ?_
      have hmem := List.mem_map_of_mem (f := Line.storing) htext
      rw [← hadded] at hmem
      exact List.mem_of_mem_filter hmem
  | @step c action h =>
      refine Line.atEach_of_forall fun line hline before _ label hlabel => ?_
      have hplain := Action.lines_of_isPlain h line (by simpa [Script.lines] using hline)
      cases (Line.loaded?_of_isPlain hplain).symm.trans hlabel
  | global name =>
      refine Line.atEach_of_forall fun line hline before _ label hlabel => ?_
      obtain rfl := List.mem_singleton.mp hline
      cases hlabel
      exact .inl ⟨name, rfl⟩
  | @literal c text =>
      have hmem := c.mem_entries_string text
      rcases c.string_cases text with ⟨-, hafter, hlines⟩ | ⟨-, hlabel, -, -, hlines⟩
      · rw [hafter] at hmem
        rw [hlines]
        refine Line.atEach_of_forall fun line hline before _ label hloaded => ?_
        obtain rfl := c.loaded?_loading text line hline label hloaded
        exact .inr ⟨text, .inl hmem⟩
      · rw [hlines]
        refine Line.atEach_append (Line.atEach_cons ?_ (Line.atEach_cons ?_ (Line.atEach_cons ?_
          Line.atEach_nil))) (Line.atEach_of_forall fun line hline before _ label hloaded => ?_)
        · rintro _ ⟨⟩
        · rintro _ ⟨⟩
        · rintro _ ⟨⟩
        · obtain rfl := c.loaded?_loading text line hline label hloaded
          rw [hlabel]
          exact .inr ⟨text, .inr (by simp)⟩

/-- Seen through a pool that holds the entries of the script, its lines load the texts that it
meets, in order. -/
theorem filterMap_quoted (h : script.Quotes c texts) {pool : StringPool} {n : Nat}
    (hpool : pool.IsNumbered n) (hinitial : (c.after script).strings.entries <+: pool.entries) :
    script.lines.filterMap (Line.quoted? pool.entries) = texts := by
  induction h with
  | nil | mint => rfl
  | append _ hb iha ihb =>
      rw [Context.after_append] at hinitial
      obtain ⟨added, hentries, -⟩ := hb.stored
      rw [Script.lines_append, List.filterMap_append, ihb hinitial,
        iha ((hentries ▸ List.prefix_append _ _ : _ <+: _).trans hinitial)]
  | @step c action h =>
      refine List.filterMap_eq_nil_iff.mpr fun line hline => ?_
      have hplain := Action.lines_of_isPlain h line (by simpa [Script.lines] using hline)
      rw [Line.quoted?, Line.loaded?_of_isPlain hplain, Option.bind_none]
  | global name =>
      have hlookup : pool.entries.lookup (globalLabel name) = none :=
        List.lookup_eq_none_iff.mpr fun entry hentry =>
          bne_iff_ne.mpr (hpool.ne_globalLabel hentry name).symm
      refine List.filterMap_eq_nil_iff.mpr fun line hline => ?_
      obtain rfl := List.mem_singleton.mp hline
      exact hlookup
  | @literal c text =>
      have hlookup : pool.entries.lookup (c.stringLabel text) = some text :=
        hpool.lookup (hinitial.subset (c.mem_entries_string text))
      have hloading : (c.loading text).filterMap (Line.quoted? pool.entries) = [text] := by
        rw [c.filterMap_loading, hlookup]
        rfl
      rcases c.string_cases text with ⟨-, -, hlines⟩ | ⟨-, -, -, -, hlines⟩
      · rw [hlines, hloading]
      · rw [hlines, List.filterMap_append, hloading]
        rfl

end Script.Quotes

/-! ## Literals and links -/

namespace Expr

theorem texts_unlink (e : Expr) : e.unlink.texts = e.texts := by
  induction e using Expr.induction with
  | int _ _ | str _ _ | bool _ _ | name _ => rfl
  | field base id ih => rw [unlink, texts_field, texts_field, ih]
  | assign target value ihtarget ihvalue =>
      rw [unlink, texts_assign, texts_assign, ihtarget, ihvalue]
  | call callee args ih =>
      rw [unlink, texts_call, texts_call, unlinkAll_eq_map, List.flatMap_map]
      exact List.flatMap_congr ih
  | unary op operand ih => rw [unlink, texts_unary, texts_unary, ih]
  | binary op left right ihleft ihright =>
      rw [unlink, texts_binary, texts_binary, ihleft, ihright]

end Expr

namespace Stmt

theorem texts_unlink_of {block : Block} (h : ∀ stmt ∈ block.stmts, stmt.unlink.texts = stmt.texts) :
    block.unlink.texts = block.texts := by
  rw [Block.texts_eq, Block.texts_eq]
  obtain ⟨decls, stmts⟩ := block
  rw [Block.unlink, unlinkAll_eq_map, List.flatMap_map]
  exact List.flatMap_congr h

theorem texts_unlink (stmt : Stmt) : stmt.unlink.texts = stmt.texts := by
  rw [texts_eq, texts_eq]
  induction stmt using Stmt.induction with
  | assign target value => simp [unlink, exprs, bodies, Expr.texts_unlink]
  | increment target | decrement target | read target | write target =>
      simp [unlink, exprs, bodies, Expr.texts_unlink]
  | ifThen cond body ih | whileLoop cond body ih | repeatLoop cond body ih =>
      simp_rw [← texts_eq] at ih
      simp [unlink, exprs, bodies, Expr.texts_unlink, texts_unlink_of ih]
  | ifElse cond thenBody elseBody ihthen ihelse =>
      simp_rw [← texts_eq] at ihthen ihelse
      simp [unlink, exprs, bodies, Expr.texts_unlink, texts_unlink_of ihthen,
        texts_unlink_of ihelse]
  | call callee args =>
      have hcall := (Expr.call callee args).texts_unlink
      simpa [unlink, exprs, bodies, Expr.unlink] using hcall
  | ret value? pos => cases value? <;> simp [unlink, exprs, bodies, Expr.texts_unlink]

end Stmt

theorem Program.texts_unlink (program : Program) : program.unlink.texts = program.texts := by
  rw [texts_eq, texts_eq, unlink, List.flatMap_map]
  refine List.flatMap_congr fun decl _ => ?_
  cases decl with
  | fn decl => exact Stmt.texts_unlink_of fun stmt _ => stmt.texts_unlink
  | var _ | struct _ => rfl

/-! ## Whole programs -/

theorem Mips.Assembly.withMnemonic_eq (assembly : Assembly) (mnemonic : String) :
    assembly.withMnemonic mnemonic = (assembly.lines.filter fun line =>
      line.instr?.any (·.operation.mnemonic == mnemonic)).filterMap Line.instr? := by
  rw [withMnemonic]
  induction assembly.lines with
  | nil => rfl
  | cons line lines ih =>
      cases hinstr : line.instr? with
      | none => simp [hinstr, ih]
      | some instr =>
          by_cases hmnemonic : instr.operation.mnemonic = mnemonic
          · simp [hinstr, hmnemonic, ih]
          · simp [hinstr, hmnemonic, ih]

theorem Program.texts_of_analyze {program : Program} {options : Options} {resolved : Resolved}
    (h : program.analyze { options } = .done resolved []) :
    resolved.program.texts = program.texts := by
  rw [← texts_unlink, unlink_of_resolve (resolve_of_analyze h)]

namespace Resolved.Emits

variable {program : Program} {options : Options} {resolved : Resolved} {assembly : Assembly}
  (hanalyze : program.analyze { options } = .done resolved []) (h : resolved.Emits assembly)

include h in
theorem strings : assembly.strings = (resolved.context.after
    (Decl.scriptAll resolved.context resolved.program.decls)).strings.entries := by
  rw [h.eq, code, Generator.assembly, Generator.context_perform]

include hanalyze h in
/-- The code of a program meets the literals of the program. -/
theorem quotes : (Decl.scriptAll resolved.context resolved.program.decls).Quotes resolved.context
    program.texts := by
  obtain ⟨texts, hquotes, htexts⟩ := Decl.quotes_all resolved.program.decls resolved.context
  have hgrammar : ∀ decl ∈ resolved.program.decls, decl.InGrammar :=
    Program.InGrammar.decl h.clean.grammar
  rwa [htexts hgrammar, ← Program.texts_eq, Program.texts_of_analyze hanalyze] at hquotes

include hanalyze h in
theorem isNumbered : ∃ n, StringPool.IsNumbered ⟨assembly.strings⟩ n := by
  obtain ⟨-, hfresh⟩ := fresh hanalyze
  rw [h.strings]
  exact ⟨_, (h.quotes hanalyze).isNumbered (by rw [hfresh]; exact ⟨[], rfl, .nil, by simp⟩)⟩

include hanalyze h in
theorem stored : assembly.lines.filter Line.isAsciiz = assembly.strings.map Line.storing := by
  obtain ⟨added, hentries, hstored⟩ := (h.quotes hanalyze).stored
  rw [(fresh hanalyze).2] at hentries
  rw [h.lines, h.strings, hstored, hentries]
  rfl

include hanalyze h in
theorem anchored : Line.AtEach (fun before line _ =>
    ∀ text, line.quoted? assembly.strings = some text → ∃ label, line.loaded? = some label ∧
      (label, text) ∈ assembly.strings ∧ Line.storing (label, text) ∈ before) assembly.lines := by
  obtain ⟨n, hnumbered⟩ := h.isNumbered hanalyze
  have hanchored := (h.quotes hanalyze).anchored
  rw [(fresh hanalyze).2, ← h.lines] at hanchored
  intro before line behind hsplit text hquoted
  obtain ⟨label, hloaded, hlookup⟩ := Option.bind_eq_some_iff.mp hquoted
  obtain ⟨_, _, hstrings, -⟩ := List.lookup_eq_some_iff.mp hlookup
  have hentry : (label, text) ∈ assembly.strings := by simp [hstrings]
  rcases hanchored before line behind hsplit label hloaded with ⟨name, hglobal⟩ | ⟨text', htext'⟩
  · exact absurd hglobal (hnumbered.ne_globalLabel hentry name)
  · have hbefore : Line.storing (label, text') ∈ before := htext'.resolve_left (by rintro ⟨⟩)
    have hmem : Line.storing (label, text') ∈ assembly.lines.filter Line.isAsciiz :=
      List.mem_filter.mpr ⟨by simp [hsplit, hbefore], rfl⟩
    rw [h.stored hanalyze] at hmem
    obtain ⟨entry, hentry', heq⟩ := List.mem_map.mp hmem
    cases heq
    obtain rfl : entry.2 = text := Option.some.inj ((hnumbered.lookup hentry').symm.trans hlookup)
    exact ⟨_, hloaded, hentry, hbefore⟩

end Resolved.Emits

namespace Program

/-- The pool of an assembly holds the texts of the literals in the function bodies, each once and in
the order of their first occurrences, under different labels.  The lines that store a text store
the entries of the pool in order, each line between a switch to the data region and one back.  And
the addresses of texts that are loaded spell the literals in source order; each text has been stored
before. -/
theorem compile_pools_strings {program linked : Program} {options : Options} {assembly : Assembly}
    (hcompile : program.compile options = .ok (linked, .ok assembly)) :
    assembly.strings.map Prod.snd = program.texts.eraseDups ∧
    (assembly.strings.map Prod.fst).Nodup ∧
    assembly.lines.filter Line.isAsciiz = assembly.strings.map Line.storing ∧
    (assembly.withMnemonic ".asciiz").map (·.operation.operands) =
      assembly.strings.map (fun entry => ["\"" ++ entry.2 ++ "\""]) ∧
    Line.AtEach Line.Enclosed assembly.lines ∧
    assembly.lines.filterMap (Line.quoted? assembly.strings) = program.texts ∧
    Line.AtEach (fun before line _ => ∀ text, line.quoted? assembly.strings = some text →
      ∃ label, line.loaded? = some label ∧ (label, text) ∈ assembly.strings ∧
        Line.storing (label, text) ∈ before) assembly.lines := by
  obtain ⟨resolved, hanalyze, -, -, hemits⟩ := emits_of_compile hcompile
  have hquotes := hemits.quotes hanalyze
  have hstored := hemits.stored hanalyze
  obtain ⟨n, hnumbered⟩ := hemits.isNumbered hanalyze
  have htexts : assembly.strings.map Prod.snd = program.texts.eraseDups := by
    have htexts := hquotes.texts_after
    rw [(Resolved.Emits.fresh hanalyze).2] at htexts
    rw [hemits.strings]
    exact htexts.trans (StringPool.foldl_meet _)
  have hoperands : (assembly.withMnemonic ".asciiz").map (·.operation.operands) =
      assembly.strings.map fun entry => ["\"" ++ entry.2 ++ "\""] := by
    have hlines : assembly.withMnemonic ".asciiz" =
        (assembly.lines.filter Line.isAsciiz).filterMap Line.instr? := assembly.withMnemonic_eq _
    rw [hlines, hstored, List.filterMap_map, List.map_filterMap]
    exact congrFun List.filterMap_eq_map _
  have hquoted : assembly.lines.filterMap (Line.quoted? assembly.strings) = program.texts := by
    rw [hemits.lines]
    refine hquotes.filterMap_quoted hnumbered ?_
    rw [hemits.strings]
  exact ⟨htexts, hnumbered.nodup, hstored, hoperands, hemits.lines ▸ hquotes.enclosed, hquoted,
    hemits.anchored hanalyze⟩

/-- A program with two texts, each of which it writes twice. -/
def refrain : Program where
  decls := [
    .var ⟨.int, ⟨"n", ⟨1, 5⟩, none⟩⟩,
    .fn ⟨.void, ⟨"chorus", ⟨2, 6⟩, none⟩, [], ⟨[], [
      .write (.str "la" ⟨3, 11⟩),
      .increment (.name ⟨"n", ⟨4, 3⟩, none⟩)]⟩⟩,
    .fn ⟨.void, ⟨"main", ⟨6, 6⟩, none⟩, [], ⟨[], [
      .ifElse (.binary .eq (.str "oh" ⟨7, 7⟩) (.str "la" ⟨7, 15⟩))
        ⟨[], [.call ⟨"chorus", ⟨8, 5⟩, none⟩ []]⟩
        ⟨[], [.write (.str "oh" ⟨10, 13⟩)]⟩]⟩⟩]

/-- Two of the four literals are stored. -/
theorem refrain_pools_strings : ∃ linked,
    refrain.compile {} = .ok (linked, .ok (refrain.code {})) ∧
      refrain.texts = ["la", "oh", "la", "oh"] ∧
      (refrain.code {}).strings.map Prod.snd = ["la", "oh"] ∧
      (refrain.code {}).lines.filter Line.isAsciiz = (refrain.code {}).strings.map Line.storing ∧
      (refrain.code {}).lines.filterMap (Line.quoted? (refrain.code {}).strings) =
        ["la", "oh", "la", "oh"] := by
  have hcompile : refrain.compile {} = .ok ((refrain.linked {}).program, .ok (refrain.code {})) :=
    compile_of_check (by decide) (by decide) (by decide) rfl rfl rfl
  have htexts : refrain.texts = ["la", "oh", "la", "oh"] := rfl
  obtain ⟨hstrings, -, hstored, -, -, hquoted, -⟩ := compile_pools_strings hcompile
  rw [htexts] at hstrings hquoted
  exact ⟨_, hcompile, htexts, hstrings.trans (by decide), hstored, hquoted⟩

end Program

end StackMips
