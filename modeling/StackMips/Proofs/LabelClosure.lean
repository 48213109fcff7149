import Mathlib.Data.List.Pairwise
import StackMips.Proofs.Lowering.Displacement
import StackMips.Proofs.Lowering.Labels
import StackMips.Proofs.Lowering.Ranges

/-!
# Labels are closed and confined

In the assembly of an accepted program all labels are different, every label that is referred to is
defined, and branches stay inside the function in which they stand.
-/

namespace StackMips

open Mips

def Mips.Operation.reference? : Operation → Option Label
  | .b label | .beq _ _ label | .ble _ _ label | .jal label | .la _ (.label label)
  | .lw _ (.label label) => some label
  | _ => none

namespace Mips.Operation

variable {operation : Operation} {callable stored text : Label → Prop}

theorem reference?_of_branch? {label : Label} (h : operation.branch? = some label) :
    operation.reference? = some label := by
  cases operation <;> first | exact h | cases h

theorem isClosed_of_reference? (h : operation.reference? = none) :
    operation.IsClosed callable stored text := by
  cases operation with
  | jal _ => cases h
  | la _ address | lw _ address =>
      cases address with
      | indexed _ _ => trivial
      | label _ => cases h
  | _ => trivial

theorem IsClosed.of_reference? {label : Label} (h : operation.IsClosed callable stored text)
    (hlabel : operation.reference? = some label) :
    operation.branch? = some label ∨ callable label ∨ stored label ∨ text label := by
  cases operation with
  | la dst address | lw dst address =>
      cases address with
      | indexed _ _ => cases hlabel
      | label label =>
          cases hlabel
          simp_all [IsClosed]
  | jal label =>
      cases hlabel
      exact .inr (.inl h)
  | b _ | beq _ _ _ | ble _ _ _ => exact .inl hlabel
  | _ => cases hlabel

end Mips.Operation

/-! ## Declarations -/

def Script.IsDetached (script : Script) : Prop :=
  ∀ line ∈ script.lines, ∀ instr ∈ line.instr?, instr.operation.reference? = none

theorem Script.isDetached_append {a b : Script} :
    IsDetached (a ++ b) ↔ a.IsDetached ∧ b.IsDetached := by
  rw [IsDetached, lines_append, List.forall_mem_append]
  rfl

namespace Script.IsDetached

theorem nil : IsDetached [] := by
  simp [IsDetached]

theorem emit {line : Line} {script : Script}
    (hline : line.instr?.bind (·.operation.reference?) = none) (hscript : script.IsDetached) :
    IsDetached (.emit line :: script) := by
  rw [IsDetached, lines_cons, Action.lines, List.singleton_append, List.forall_mem_cons]
  refine ⟨fun instr hinstr => ?_, hscript⟩
  rwa [Option.mem_def.mp hinstr] at hline

end Script.IsDetached

namespace Context

variable (c : Context) (name : String) (info : FunctionInfo)

theorem isDetached_note (text : String) : Script.IsDetached (c.note text) := by
  unfold note
  split
  · exact .emit rfl .nil
  · exact .nil

theorem isDetached_storeWord (register : Register) : Script.IsDetached (storeWord register) :=
  .emit rfl (.emit rfl .nil)

theorem isDetached_prologue : (c.prologue name info).IsDetached := by
  unfold prologue
  simp only [Script.isDetached_append, c.isDetached_note, isDetached_storeWord, and_true]
  refine ⟨⟨⟨⟨.emit rfl .nil, ?globl⟩, .emit rfl .nil⟩, .emit rfl .nil⟩, ?locals⟩
  case globl =>
    split
    · exact .emit rfl .nil
    · exact .nil
  case locals =>
    split
    · exact .emit rfl .nil
    · exact .nil

theorem isDetached_epilogue (exit : Label) : (c.epilogue exit name info).IsDetached := by
  unfold epilogue
  simp only [Script.isDetached_append, c.isDetached_note, true_and]
  refine ⟨.emit rfl (.emit rfl (.emit rfl (.emit rfl (.emit rfl .nil)))), ?_⟩
  split
  · exact .emit rfl (.emit rfl .nil)
  · exact .emit rfl .nil

theorem label_mem_prologue : .label (c.functionLabel name) none ∈
    Script.lines (c.prologue name info) := by
  unfold prologue
  simp [Action.lines]

theorem label_mem_epilogue (exit : Label) :
    .label exit none ∈ Script.lines (c.epilogue exit name info) := by
  unfold epilogue
  simp [Action.lines]

end Context

namespace FnDecl

variable (c : Context) (fn : FnDecl)

theorem after_script :
    c.after (fn.script c) = (fn.bodyContext c).after (fn.bodyScript c) := by
  simp only [script, Context.after_append, Context.after_prologue,
    Context.after_of_isPlain (c.isPlain_epilogue _ _ _)]
  rfl

end FnDecl

namespace Decl

variable {calls : Label → Nat → Prop} {stored : Label → Prop} {base c : Context}

theorem isDetached_var (c : Context) (decl : VarDecl) : (script c (.var decl)).IsDetached :=
  .emit rfl (.emit rfl (.emit rfl .nil))

/-- What the code of a declaration refers to can be called, is stored, or is a text of the pool. -/
theorem isClosed {decl : Decl} (h : decl.IsStructured calls stored base) (hc : c.Like base) :
    (decl.script c).IsClosed calls stored (c.after (decl.script c)).strings := by
  cases decl with
  | var decl => exact fun line hline instr hinstr =>
      Operation.isClosed_of_reference? (isDetached_var c decl line hline instr hinstr)
  | struct _ => simp [Script.IsClosed, script]
  | fn fn =>
      have hbody := (h (c.exitLabel fn.id.name) (hc.after (c.exiting fn.id.name))).isClosed
      intro line hline instr hinstr
      rw [script, FnDecl.lines_script, List.mem_append, List.mem_append] at hline
      rcases hline with hline | hline | hline
      · exact Operation.isClosed_of_reference? (c.isDetached_prologue _ _ line hline instr hinstr)
      · rw [script, FnDecl.after_script]
        exact hbody line hline instr hinstr
      · exact Operation.isClosed_of_reference? (c.isDetached_epilogue _ _ _ line hline instr hinstr)

theorem isClosed_all {decls : List Decl} (h : ∀ decl ∈ decls, decl.IsStructured calls stored base)
    (hc : c.Like base) :
    (scriptAll c decls).IsClosed calls stored (c.after (scriptAll c decls)).strings := by
  induction decls generalizing c with
  | nil => simp [Script.IsClosed, scriptAll]
  | cons decl decls ih =>
      rw [scriptAll, Context.after_append]
      exact ((isClosed (h decl (by simp)) hc).mono (StringPool.le_composes.decls decls _)).append
        (ih (fun other hother => h other (by simp [hother])) (hc.after _))

end Decl

namespace FnDecl

/-- The branches of a function lead to labels of the function. -/
theorem branch_mem_script {calls : Label → Nat → Prop} {stored : Label → Prop} {base c : Context}
    {fn : FnDecl} (h : (Decl.fn fn).IsStructured calls stored base) (hc : c.Like base) :
    ∀ line ∈ (fn.script c).lines, ∀ instr ∈ line.instr?, ∀ label,
      instr.operation.branch? = some label → .label label none ∈ (fn.script c).lines := by
  intro line hline instr hinstr label hlabel
  rw [lines_script, List.mem_append, List.mem_append] at hline ⊢
  rcases hline with hline | hline | hline
  · cases (c.isDetached_prologue _ _ line hline instr hinstr).symm.trans
      (Operation.reference?_of_branch? hlabel)
  · have hbody := h (c.exitLabel fn.id.name) (hc.after (c.exiting fn.id.name))
    rw [bodyScript, ← Script.map_fst_code 0] at hline
    obtain ⟨x, hx, rfl⟩ := List.mem_map.mp hline
    rcases hbody.branches x hx instr hinstr label hlabel with rfl | htarget | hcode
    · exact .inr (.inr (c.label_mem_epilogue _ _ _))
    · cases htarget
    · refine .inr (.inl ?_)
      rw [← Script.map_fst_code 0]
      exact List.mem_map_of_mem hcode
  · cases (c.isDetached_epilogue _ _ _ line hline instr hinstr).symm.trans
      (Operation.reference?_of_branch? hlabel)

/-- The lines with which a function is left for good. -/
def ending (isEntry : Bool) (comment comment' : Option String) : List Line :=
  if isEntry then [.op ⟨.li .v0 (Syscall.number .exit), comment⟩, .op ⟨.syscall, comment'⟩]
  else [.op ⟨.jr .ra, comment⟩]

theorem ending_suffix_script (c : Context) (fn : FnDecl) : ∃ comment comment',
    ending (c.isEntryPoint fn.id.name) comment comment' <:+ (fn.script c).lines := by
  suffices hepilogue : ∃ comment comment', ending (c.isEntryPoint fn.id.name) comment comment' <:+
      (c.epilogue (c.exitLabel fn.id.name) fn.id.name fn.signature).lines by
    obtain ⟨comment, comment', hepilogue⟩ := hepilogue
    rw [lines_script, ← List.append_assoc]
    exact ⟨comment, comment', hepilogue.trans (List.suffix_append _ _)⟩
  unfold Context.epilogue ending
  rw [Script.lines_append]
  split
  · exact ⟨_, _, List.suffix_append _ _⟩
  · exact ⟨_, none, List.suffix_append _ _⟩

end FnDecl

/-! ## Programs -/

namespace Resolved

/-- The declarations of a program, each with the lines that the generator emits for it. -/
def ranges (resolved : Resolved) : List (Decl × List Line) :=
  (Decl.visits { context := resolved.context } resolved.program.decls).map fun visit =>
    (visit.1, Gen.emitted visit.1.lower visit.2)

namespace Emits

variable {program : Program} {options : Options} {resolved : Resolved} {assembly : Assembly}
  (hanalyze : program.analyze { options } = .done resolved []) (h : resolved.Emits assembly)

include h in
theorem ranges_spec : resolved.ranges.map Prod.fst = resolved.program.decls ∧
    assembly.lines = resolved.ranges.flatMap Prod.snd ∧
    ∀ decl range, (decl, range) ∈ resolved.ranges → decl ∈ resolved.program.decls ∧
      ∃ c : Context, c.Like resolved.context ∧ range = (decl.script c).lines := by
  obtain ⟨hfst, hlines, hvisits⟩ := h.visits rfl
  refine ⟨?_, ?_, ?_⟩
  · rw [ranges, List.map_map]
    exact hfst
  · rw [ranges, List.flatMap_map]
    exact hlines
  · intro decl range hrange
    obtain ⟨visit, hvisit, heq⟩ := List.mem_map.mp hrange
    obtain ⟨hmem, hlike, _, hemitted⟩ := hvisits visit hvisit
    cases heq
    exact ⟨hmem, _, hlike, hemitted⟩

include h in
theorem exists_range {decl : Decl} (hdecl : decl ∈ resolved.program.decls) :
    ∃ c : Context, c.Like resolved.context ∧ (decl, (decl.script c).lines) ∈ resolved.ranges := by
  obtain ⟨hfst, _, hranges⟩ := h.ranges_spec
  rw [← hfst] at hdecl
  obtain ⟨⟨decl, range⟩, hrange, rfl⟩ := List.mem_map.mp hdecl
  obtain ⟨_, c, hc, rfl⟩ := hranges _ _ hrange
  exact ⟨c, hc, hrange⟩

include hanalyze h in
theorem isStructured : ∀ decl ∈ resolved.program.decls,
    decl.IsStructured resolved.Calls resolved.Stores resolved.context := by
  intro decl hdecl
  cases decl with
  | var _ | struct _ => trivial
  | fn fn => exact fun exit c hc =>
      h.structured hanalyze (Program.mem_functions.mpr hdecl) exit hc 0

include hanalyze in
theorem fresh : resolved.context.labels = 0 ∧ resolved.context.strings = {} := by
  obtain ⟨rfl, _⟩ := Program.clean_of_analyze hanalyze
  exact ⟨rfl, rfl⟩

include hanalyze h in
theorem labels_nodup (hentry : resolved.context.options.HasPlainEntry) : assembly.labels.Nodup ∧
    ∃ k, (assembly.labels.filter isSynthetic).Perm ((List.range k).map Context.synthetic) := by
  have hdefines := Decl.defines_all (h.isStructured hanalyze) ⟨rfl, rfl⟩
  rw [Assembly.labels, h.lines]
  exact hdefines.nodup (fresh hanalyze).1 hentry
    (Program.nodup_names (Program.resolve_of_analyze hanalyze))

include hanalyze h in
/-- Different functions have different labels, if no label is defined twice. -/
theorem eq_of_functionLabel (hnodup : assembly.labels.Nodup) {fn other : FnDecl}
    (hfn : fn ∈ resolved.program.functions) (hother : other ∈ resolved.program.functions)
    (hlabel : resolved.context.functionLabel fn.id.name =
      resolved.context.functionLabel other.id.name) : fn = other := by
  have hmem : ∀ fn : FnDecl, resolved.context.functionLabel fn.id.name ∈
      Decl.namedLabels resolved.context (.fn fn) := by
    intro fn
    simp only [Context.functionLabel, Decl.namedLabels]
    split <;> simp
  obtain ⟨n, -, hperm⟩ := Decl.defines_all (h.isStructured hanalyze) ⟨rfl, rfl⟩
  rw [Assembly.labels, h.lines] at hnodup
  have hnamed := (List.nodup_append.mp (hperm.nodup_iff.mp hnodup)).2.1
  have hdisjoint := (List.nodup_flatMap.mp hnamed).2
  have : Std.Symm (Function.onFun List.Disjoint (Decl.namedLabels resolved.context)) :=
    ⟨fun _ _ => List.disjoint_symm⟩
  by_contra hne
  refine hdisjoint.forall (Program.mem_functions.mp hfn) (Program.mem_functions.mp hother)
    (by simpa using hne) (hmem fn) ?_
  rw [hlabel]
  exact hmem other

include h in
/-- The label of a function that can be called stands in the range of the function. -/
theorem entry_of_calls {label : Label} {words : Nat} (hcalls : resolved.Calls label words) :
    ∃ fn range, (.fn fn, range) ∈ resolved.ranges ∧
      label = resolved.context.functionLabel fn.id.name ∧ .label label none ∈ range := by
  obtain ⟨fn, hfn, rfl, _⟩ := hcalls
  obtain ⟨c, hc, hrange⟩ := h.exists_range (Program.mem_functions.mp hfn)
  refine ⟨fn, _, hrange, rfl, ?_⟩
  rw [← hc.functionLabel, Decl.script, FnDecl.lines_script]
  exact List.mem_append_left _ (c.label_mem_prologue _ _)

include h in
/-- Space is reserved for every global variable. -/
theorem space_of_stores {label : Label} (hstores : resolved.Stores label) :
    ∃ decl, .var decl ∈ resolved.program.decls ∧ label = globalLabel decl.id.name ∧
      .label label (some { operation := .space wordSize }) ∈ assembly.lines := by
  obtain ⟨decl, hdecl, rfl⟩ := hstores
  obtain ⟨c, _, hrange⟩ := h.exists_range hdecl
  refine ⟨decl, hdecl, rfl, ?_⟩
  rw [h.ranges_spec.2.1]
  exact List.mem_flatMap.mpr ⟨_, hrange, by simp [Decl.script, Action.lines]⟩

include hanalyze h in
/-- Every text of the pool is stored. -/
theorem asciiz_of_lookup {label : Label} {text : String}
    (hlookup : (resolved.context.after (Decl.scriptAll resolved.context
      resolved.program.decls)).strings.lookup text = some label) :
    .label label (some { operation := .asciiz text }) ∈ assembly.lines := by
  rw [h.lines]
  refine (Script.stores_composes.decls _ _ text label hlookup).resolve_left ?_
  rw [(fresh hanalyze).2]
  exact nofun

include hanalyze h in
/-- The labels that operations refer to are those of functions, global variables and texts. -/
theorem isClosed : ∀ line ∈ assembly.lines, ∀ instr ∈ line.instr?, instr.operation.IsClosed
    (fun label => ∃ fn range, (.fn fn, range) ∈ resolved.ranges ∧
      label = resolved.context.functionLabel fn.id.name ∧ .label label none ∈ range)
    (fun label => ∃ decl, .var decl ∈ resolved.program.decls ∧
      label = globalLabel decl.id.name ∧
      .label label (some { operation := .space wordSize }) ∈ assembly.lines)
    (fun label => ∃ text, .label label (some { operation := .asciiz text }) ∈ assembly.lines) := by
  intro line hline instr hinstr
  have hclosed := Decl.isClosed_all (h.isStructured hanalyze) ⟨rfl, rfl⟩ line (h.lines ▸ hline)
    instr hinstr
  exact hclosed.mono (fun _ ⟨_, hcalls⟩ => h.entry_of_calls hcalls)
    (fun _ hstores => h.space_of_stores hstores)
    (fun _ ⟨text, hlookup⟩ => ⟨text, h.asciiz_of_lookup hanalyze hlookup⟩)

include hanalyze h in
/-- Branches stand in functions, and lead to labels of the same function. -/
theorem branch_mem_range {decl : Decl} {range : List Line}
    (hrange : (decl, range) ∈ resolved.ranges) : ∀ line ∈ range, ∀ instr ∈ line.instr?,
      ∀ label, instr.operation.branch? = some label →
        (∃ fn, decl = .fn fn) ∧ .label label none ∈ range := by
  intro line hline instr hinstr label hlabel
  obtain ⟨hmem, c, hc, rfl⟩ := h.ranges_spec.2.2 _ _ hrange
  cases decl with
  | fn fn => exact ⟨⟨fn, rfl⟩, FnDecl.branch_mem_script (h.isStructured hanalyze _ hmem) hc line
      hline instr hinstr label hlabel⟩
  | var decl =>
      cases (Decl.isDetached_var c decl line hline instr hinstr).symm.trans
        (Operation.reference?_of_branch? hlabel)
  | struct _ => cases hline

include hanalyze h in
theorem reference_mem_labels : ∀ line ∈ assembly.lines, ∀ instr ∈ line.instr?,
    ∀ label ∈ instr.operation.reference?, label ∈ assembly.labels := by
  intro line hline instr hinstr label hlabel
  have hmem : ∀ {instr?}, .label label instr? ∈ assembly.lines → label ∈ assembly.labels :=
    fun hlabel => List.mem_filterMap.mpr ⟨_, hlabel, rfl⟩
  have hlines := h.ranges_spec.2.1
  have hrange : ∀ {range}, range ∈ resolved.ranges → ∀ {line}, line ∈ range.2 →
      line ∈ assembly.lines := fun hrange _ hline =>
    hlines ▸ List.mem_flatMap.mpr ⟨_, hrange, hline⟩
  rcases (h.isClosed hanalyze line hline instr hinstr).of_reference? hlabel with
    hbranch | ⟨fn, range, hfn, _, hentry⟩ | ⟨_, _, _, hspace⟩ | ⟨text, htext⟩
  · rw [hlines] at hline
    obtain ⟨⟨decl, range⟩, hdecl, hline⟩ := List.mem_flatMap.mp hline
    exact hmem (hrange hdecl
      (h.branch_mem_range hanalyze hdecl line hline instr hinstr label hbranch).2)
  · exact hmem (hrange hfn hentry)
  · exact hmem hspace
  · exact hmem htext

end Emits

end Resolved

namespace Program

/-- If the entry point has a plain name, the labels of an accepted program are as follows.  No label
is defined twice, and the counter's labels are the first ones without a gap.  Every label that is
referred to is defined: a call leads to the entry of a function, a load is from the space of a
global variable, an address is that of a global variable or a text, and a branch stays in the range
of its function.  A function ends with its return, the entry point with the end of the program. -/
theorem compile_closes_labels {program linked : Program} {options : Options}
    {assembly : Assembly} (h : program.compile options = .ok (linked, .ok assembly))
    (hentry : options.HasPlainEntry) :
    ∃ resolved, program.analyze { options } = .done resolved [] ∧ linked = resolved.program ∧
      resolved.ranges.map Prod.fst = linked.decls ∧
      assembly.lines = resolved.ranges.flatMap Prod.snd ∧
      assembly.labels.Nodup ∧
      (∃ k, (assembly.labels.filter isSynthetic).Perm ((List.range k).map Context.synthetic)) ∧
      (∀ line ∈ assembly.lines, ∀ instr ∈ line.instr?, ∀ label ∈ instr.operation.reference?,
        label ∈ assembly.labels) ∧
      (∀ line ∈ assembly.lines, ∀ instr ∈ line.instr?, instr.operation.IsClosed
        (fun label => ∃ fn range, (.fn fn, range) ∈ resolved.ranges ∧
          label = resolved.context.functionLabel fn.id.name ∧ .label label none ∈ range)
        (fun label => ∃ decl, .var decl ∈ linked.decls ∧ label = globalLabel decl.id.name ∧
          .label label (some { operation := .space wordSize }) ∈ assembly.lines)
        (fun label => ∃ text, .label label (some { operation := .asciiz text }) ∈
          assembly.lines)) ∧
      (∀ decl range, (decl, range) ∈ resolved.ranges → ∀ line ∈ range, ∀ instr ∈ line.instr?,
        ∀ label, instr.operation.branch? = some label →
          (∃ fn, decl = .fn fn) ∧ .label label none ∈ range) ∧
      ∀ fn range, (.fn fn, range) ∈ resolved.ranges → ∃ comment comment',
        FnDecl.ending (fn.id.name == options.entryPoint) comment comment' <:+ range := by
  obtain ⟨resolved, hanalyze, rfl, rfl, hemits⟩ := emits_of_compile h
  obtain ⟨hfst, hlines, hranges⟩ := hemits.ranges_spec
  obtain ⟨hnodup, hsynthetic⟩ := hemits.labels_nodup hanalyze hentry
  refine ⟨resolved, hanalyze, rfl, hfst, hlines, hnodup, hsynthetic,
    hemits.reference_mem_labels hanalyze, hemits.isClosed hanalyze,
    fun _ _ hrange => hemits.branch_mem_range hanalyze hrange, fun fn range hrange => ?_⟩
  obtain ⟨_, c, hc, rfl⟩ := hranges _ _ hrange
  have hending := FnDecl.ending_suffix_script c fn
  rw [Context.isEntryPoint, hc.options] at hending
  exact hending

/-- A program with a global variable, a text, a loop and a call. -/
def countdown : Program where
  decls := [
    .var ⟨.int, ⟨"total", ⟨1, 5⟩, none⟩⟩,
    .fn ⟨.void, ⟨"countdown", ⟨2, 6⟩, none⟩, [⟨.int, ⟨"n", ⟨2, 20⟩, none⟩⟩], ⟨[], [
      .whileLoop (.binary .and
          (.binary .gt (.name ⟨"n", ⟨3, 10⟩, none⟩) (.int 0 ⟨3, 14⟩))
          (.binary .gt (.name ⟨"total", ⟨3, 19⟩, none⟩) (.int 0 ⟨3, 27⟩))) ⟨[], [
        .write (.str "tick" ⟨4, 11⟩),
        .decrement (.name ⟨"n", ⟨5, 5⟩, none⟩)]⟩]⟩⟩,
    .fn ⟨.void, ⟨"main", ⟨8, 6⟩, none⟩, [], ⟨[], [
      .assign (.name ⟨"total", ⟨9, 3⟩, none⟩) (.int 2 ⟨9, 11⟩),
      .call ⟨"countdown", ⟨10, 3⟩, none⟩ [.name ⟨"total", ⟨10, 13⟩, none⟩]]⟩⟩]

/-- The exit of the function, the loop, the conjunction and the text take five labels. -/
theorem countdown_closes_labels : ∃ linked,
    countdown.compile {} = .ok (linked, .ok (countdown.code {})) ∧
      (countdown.code {}).labels =
        ["_total", "_countdown", ".L1", ".L3", ".L4", ".L2", ".L0", "main", "main_Exit"] ∧
      (countdown.code {}).labels.Nodup ∧
      ((countdown.code {}).labels.filter isSynthetic).Perm ((List.range 5).map Context.synthetic) ∧
      ∀ line ∈ (countdown.code {}).lines, ∀ instr ∈ line.instr?,
        ∀ label ∈ instr.operation.reference?, label ∈ (countdown.code {}).labels := by
  have hcompile : countdown.compile {} =
      .ok ((countdown.linked {}).program, .ok (countdown.code {})) :=
    compile_of_check (by decide) (by decide) (by decide) rfl rfl rfl
  have hlabels : (countdown.code {}).labels = ["_total", "_countdown", ".L1", ".L3", ".L4", ".L2",
      ".L0", "main", "main_Exit"] := by decide +kernel
  obtain ⟨_, _, _, _, _, hnodup, ⟨k, hsynthetic⟩, hreferences, _⟩ :=
    compile_closes_labels hcompile ⟨by decide, by decide, by decide⟩
  obtain rfl : 5 = k := by
    have hcount : ((countdown.code {}).labels.filter isSynthetic).length = 5 := by
      rw [hlabels]
      decide +kernel
    simpa [hcount] using hsynthetic.length_eq
  exact ⟨_, hcompile, hlabels, hnodup, hsynthetic, hreferences⟩

end Program

end StackMips
