import Mathlib.Data.List.Nodup
import StackMips.Proofs.Lowering.Program
import StackMips.Proofs.Lowering.Structured

/-!
# Labels of generated code

Every label that is taken from the counter is defined once.  Besides these labels there are those
that are made from the names of global variables and functions, so all labels differ if the names
do.  What operations refer to is a function, a global variable or a text.
-/

namespace StackMips

open Mips

/-! ## Labels are defined once -/

def Script.labels (script : Script) : List Label := script.lines.filterMap Line.label?

@[simp] theorem Script.labels_append (a b : Script) : labels (a ++ b) = labels a ++ labels b := by
  simp [labels]

theorem Action.IsStraight.label? {stored : Label → Prop} {d : Nat} {action : Action}
    (h : action.IsStraight stored d) : ∀ line ∈ action.lines, line.label? = none := by
  cases action with
  | emit line =>
      cases line with
      | op _ | comment _ => simp [Action.lines, Line.label?]
      | label _ _ | region _ => cases h
  | push _ | pop _ | release _ | mint | pool _ _ => simp [Action.lines, Line.label?]

/-- The script defines the labels that it takes from the counter, and the given ones. -/
def Script.Defines (c : Context) (script : Script) (labels : List Label) : Prop :=
  ∃ n, (c.after script).labels = c.labels + n ∧
    script.labels.Perm ((List.range' c.labels n).map Context.synthetic ++ labels)

namespace Script.Defines

/-- A script that does not change the context takes no labels. -/
theorem of_after {script : Script} {c : Context} (h : c.after script = c) :
    script.Defines c script.labels :=
  ⟨0, by rw [h, Nat.add_zero], .refl _⟩

theorem append {c : Context} {a b : Script} {labels labels' : List Label} (ha : a.Defines c labels)
    (hb : b.Defines (c.after a) labels') : Script.Defines c (a ++ b) (labels ++ labels') := by
  obtain ⟨m, hm, ha⟩ := ha
  obtain ⟨n, hn, hb⟩ := hb
  rw [hm] at hn hb
  refine ⟨m + n, by rw [Context.after_append, hn, Nat.add_assoc], ?_⟩
  rw [labels_append, ← List.range'_append_1, List.map_append]
  refine (ha.append hb).trans ?_
  simp only [List.append_assoc]
  exact .append_left _ (List.perm_append_comm_assoc _ _ _)

/-- Labels are taken from the counter before the script that defines them. -/
theorem mints_append {c : Context} {n : Nat} {script : Script} {labels : List Label}
    (h : script.Defines (c.minted n)
      ((List.range' c.labels n).map Context.synthetic ++ labels)) :
    Script.Defines c (List.replicate n .mint ++ script) labels := by
  obtain ⟨m, hm, h⟩ := h
  have hmints : Script.labels (List.replicate n .mint) = [] := by
    rw [Script.labels, lines_mints]
    rfl
  refine ⟨n + m, ?_, ?_⟩
  · rw [Context.after_append, Context.after_mints, hm, Context.labels_minted, Nat.add_assoc]
  · rw [labels_append, hmints, List.nil_append, ← List.range'_append_1, List.map_append]
    refine h.trans ?_
    simp only [Context.labels_minted, List.append_assoc]
    exact List.perm_append_comm_assoc _ _ _

theorem of_perm {c : Context} {script : Script} {labels labels' : List Label}
    (h : script.Defines c labels) (hperm : labels.Perm labels') : script.Defines c labels' := by
  obtain ⟨n, hn, h⟩ := h
  exact ⟨n, hn, h.trans (hperm.append_left _)⟩

end Script.Defines

/-- Structured code defines the labels that it takes, and its marks. -/
theorem Script.Structured.defines {calls : Label → Nat → Prop} {stored : Label → Prop}
    {exit : Label} {targets marks : Marks} {c : Context} {d d' : Nat} {script : Script}
    (h : Structured calls stored exit targets c d script d' marks) :
    script.Defines c (marks.map Prod.fst) := by
  induction h with
  | nil => exact .of_after rfl
  | append _ _ iha ihb =>
      rw [List.map_append]
      exact iha.append ihb
  | @step _ c _ action h =>
      have hnone : Script.labels [action] = [] := by
        simpa [Script.labels] using h.label?
      rw [List.map_nil, ← hnone]
      exact .of_after (h.context c)
  | call _ | branch _ _ | leave | mark _ => exact .of_after rfl
  | text c text comment =>
      unfold Context.pooling
      split
      · exact .of_after rfl
      · exact ⟨1, rfl, .refl _⟩
  | scope own hown _ hinner ih =>
      refine .mints_append (ih.of_perm ?_)
      rw [← hown, ← List.map_append]
      exact hinner.map Prod.fst

/-! ## Labels of declarations -/

namespace Decl

def namedLabels (c : Context) : Decl → List Label
  | .var decl => [globalLabel decl.id.name]
  | .fn decl =>
    if c.isEntryPoint decl.id.name then [decl.id.name, decl.id.name ++ "_Exit"]
    else ["_" ++ decl.id.name]
  | .struct _ => []

def IsStructured (calls : Label → Nat → Prop) (stored : Label → Prop) (base : Context) :
    Decl → Prop
  | .fn decl => ∀ (exit : Label) {c : Context}, c.Like base →
    Script.Structured calls stored exit [] c 0 (decl.body.script c exit) 0 []
  | .var _ | .struct _ => True

end Decl

namespace Context

variable (c : Context) (name : String) (info : FunctionInfo)

theorem labels_note (text : String) : Script.labels (c.note text) = [] := by
  unfold note
  split <;> rfl

theorem labels_prologue : Script.labels (c.prologue name info) = [c.functionLabel name] := by
  unfold prologue
  simp only [Script.labels_append, labels_note]
  split <;> split <;> rfl

theorem labels_epilogue (exit : Label) : Script.labels (c.epilogue exit name info) = [exit] := by
  unfold epilogue
  simp only [Script.labels_append, labels_note]
  split <;> rfl

end Context

/-- The code of a function from its prologue on, in a context in which the exit label is known. -/
theorem FnDecl.defines_from_prologue {c c' : Context} {exit : Label} {fn : FnDecl}
    (hbody : (fn.body.script c' exit).Defines c' []) :
    Script.Defines c' (c.prologue fn.id.name fn.signature ++ (fn.body.script c' exit ++
      c.epilogue exit fn.id.name fn.signature)) [c.functionLabel fn.id.name, exit] := by
  have hprologue := Script.Defines.of_after (c.after_prologue c' fn.id.name fn.signature)
  have hepilogue := Script.Defines.of_after (c := c'.after (fn.body.script c' exit))
    (Context.after_of_isPlain (c.isPlain_epilogue exit fn.id.name fn.signature) _)
  rw [c.labels_prologue] at hprologue
  rw [c.labels_epilogue] at hepilogue
  exact hprologue.append (by rw [c.after_prologue]; exact hbody.append hepilogue)

namespace Decl

variable {calls : Label → Nat → Prop} {stored : Label → Prop} {base c : Context}

theorem defines {decl : Decl} (h : decl.IsStructured calls stored base) (hc : c.Like base) :
    (decl.script c).Defines c (decl.namedLabels base) := by
  cases decl with
  | var _ | struct _ => exact .of_after rfl
  | fn fn =>
      have hentry : base.isEntryPoint fn.id.name = c.isEntryPoint fn.id.name := by
        simp [Context.isEntryPoint, hc.options]
      simp only [script, FnDecl.script, FnDecl.bodyScript, FnDecl.bodyContext, namedLabels, hentry,
        Context.exiting, Context.exitLabel, List.append_assoc]
      cases hname : c.isEntryPoint fn.id.name with
      | true =>
          have hcode := FnDecl.defines_from_prologue (c := c) (h (fn.id.name ++ "_Exit") hc).defines
          rw [Context.functionLabel, hname] at hcode
          exact hcode
      | false =>
          have hcode := FnDecl.defines_from_prologue (c := c)
            (h (Context.synthetic c.labels) (hc.minted 1)).defines
          rw [Context.functionLabel, hname] at hcode
          have hminted := Script.Defines.mints_append (n := 1) (hcode.of_perm (.swap _ _ []))
          exact hminted

theorem defines_all {decls : List Decl} (h : ∀ decl ∈ decls, decl.IsStructured calls stored base)
    (hc : c.Like base) : (scriptAll c decls).Defines c (decls.flatMap (namedLabels base)) := by
  induction decls generalizing c with
  | nil => exact .of_after rfl
  | cons decl decls ih =>
      rw [List.flatMap_cons]
      exact (defines (h decl (by simp)) hc).append
        (ih (fun other hother => h other (by simp [hother])) (hc.after _))

end Decl

/-! ## Labels are different -/

/-- Whether a label comes from the counter: its first character is a dot. -/
def Mips.isSynthetic (label : Label) : Bool := label.toList.head? == some '.'

/-- The name of the entry point is not empty, and starts neither like the labels that are made from
other names nor like those from the counter. -/
structure Options.HasPlainEntry (options : Options) : Prop where
  nonempty : options.entryPoint ≠ ""
  underscore : options.entryPoint.toList.head? ≠ some '_'
  dot : options.entryPoint.toList.head? ≠ some '.'

theorem Context.synthetic_injective : Function.Injective Context.synthetic := by
  intro m n h
  have hrepr : m.repr.toList = n.repr.toList :=
    congrArg String.toList ((String.append_right_inj ".L").mp h)
  rw [Nat.toList_repr, Nat.toList_repr] at hrepr
  rw [← Nat.ofDigitChars_ten_toDigits (n := m), hrepr, Nat.ofDigitChars_ten_toDigits]

theorem Context.isSynthetic_synthetic (n : Nat) : isSynthetic (Context.synthetic n) := by
  simp [isSynthetic, Context.synthetic]

namespace Decl

variable {base : Context} {decl : Decl} {label : Label}

theorem namedLabels_cases (hplain : base.options.HasPlainEntry)
    (h : label ∈ decl.namedLabels base) :
    label = "_" ++ decl.id.name ∨ decl.id.name = base.options.entryPoint ∧
      label.toList.head? = base.options.entryPoint.toList.head? := by
  cases decl with
  | var decl => exact .inl (List.mem_singleton.mp h)
  | struct decl => cases h
  | fn decl =>
      rw [namedLabels] at h
      split at h
      · next hentry =>
          have hname : decl.id.name = base.options.entryPoint := by
            simpa [Context.isEntryPoint] using hentry
          rw [hname] at h
          refine .inr ⟨hname, ?_⟩
          rcases List.mem_cons.mp h with rfl | h
          · rfl
          · obtain rfl := List.mem_singleton.mp h
            have hnonempty : base.options.entryPoint.toList ≠ [] := by
              simpa using hplain.nonempty
            rw [String.toList_append, List.head?_append_of_ne_nil _ hnonempty]
      · exact .inl (List.mem_singleton.mp h)

theorem head?_underscore (name : String) : ("_" ++ name).toList.head? = some '_' := by
  simp

theorem isSynthetic_namedLabels (hplain : base.options.HasPlainEntry)
    (h : label ∈ decl.namedLabels base) : isSynthetic label = false := by
  rcases namedLabels_cases hplain h with rfl | ⟨_, hhead⟩
  · simp [isSynthetic]
  · simpa [isSynthetic, hhead] using hplain.dot

theorem nodup_namedLabels (hplain : base.options.HasPlainEntry) {decls : List Decl}
    (hnames : (decls.map (·.id.name)).Nodup) : (decls.flatMap (namedLabels base)).Nodup := by
  refine List.nodup_flatMap.mpr ⟨fun decl _ => ?_, (List.pairwise_map.mp hnames).imp ?_⟩
  · cases decl with
    | var _ | struct _ => simp [namedLabels]
    | fn decl =>
        have hlength : decl.id.name ≠ decl.id.name ++ "_Exit" := fun h => by
          simpa using congrArg String.length h
        rw [namedLabels]
        split <;> simp [hlength]
  · intro a b hne label ha hb
    rcases namedLabels_cases hplain ha with rfl | ⟨ha, hhead⟩ <;>
      rcases namedLabels_cases hplain hb with hb | ⟨hb, hhead'⟩
    · exact hne ((String.append_right_inj "_").mp hb)
    · exact hplain.underscore (hhead'.symm.trans (head?_underscore _))
    · subst hb
      exact hplain.underscore (hhead.symm.trans (head?_underscore _))
    · exact hne (ha.trans hb.symm)

end Decl

/-- All labels of a program differ if the names of its declarations do, and those that come from the
counter are the first ones. -/
theorem Script.Defines.nodup {base : Context} {script : Script} {decls : List Decl}
    (h : script.Defines base (decls.flatMap (Decl.namedLabels base))) (hlabels : base.labels = 0)
    (hplain : base.options.HasPlainEntry) (hnames : (decls.map (·.id.name)).Nodup) :
    script.labels.Nodup ∧
      ∃ k, (script.labels.filter isSynthetic).Perm ((List.range k).map Context.synthetic) := by
  obtain ⟨n, _, hperm⟩ := h
  rw [hlabels, ← List.range_eq_range'] at hperm
  have hnamed : ∀ label ∈ decls.flatMap (Decl.namedLabels base), isSynthetic label = false := by
    intro label hlabel
    obtain ⟨decl, _, hlabel⟩ := List.mem_flatMap.mp hlabel
    exact Decl.isSynthetic_namedLabels hplain hlabel
  refine ⟨hperm.nodup_iff.mpr ?_, n, (hperm.filter _).trans ?_⟩
  · refine (List.nodup_range.map Context.synthetic_injective).append
      (Decl.nodup_namedLabels hplain hnames) fun label hsynthetic hlabel => ?_
    obtain ⟨k, _, rfl⟩ := List.mem_map.mp hsynthetic
    exact absurd (Context.isSynthetic_synthetic k) (by simp [hnamed _ hlabel])
  · rw [List.filter_append, List.filter_eq_self.mpr, List.filter_eq_nil_iff.mpr, List.append_nil]
    · simpa using hnamed
    · simpa using fun k _ => Context.isSynthetic_synthetic k

/-! ## What operations refer to -/

/-- The labels that an operation refers to belong to functions that it calls, to variables or, if
only their address is taken, to texts. -/
def Mips.Operation.IsClosed (callable stored text : Label → Prop) : Operation → Prop
  | .jal label => callable label
  | .lw _ (.label label) => stored label
  | .la _ (.label label) => stored label ∨ text label
  | _ => True

theorem Mips.Operation.isClosed_of_keepsStack {callable stored text : Label → Prop}
    {operation : Operation} (h : operation.keepsStack)
    (hdatum : ∀ label ∈ operation.datum?, stored label) :
    operation.IsClosed callable stored text := by
  cases operation with
  | jal _ => cases h
  | lw dst address | la dst address =>
      cases address with
      | indexed _ _ => trivial
      | label label => simp_all [IsClosed, datum?]
  | _ => trivial

theorem Mips.Operation.IsClosed.mono {callable callable' stored stored' text text' : Label → Prop}
    (hcallable : ∀ label, callable label → callable' label)
    (hstored : ∀ label, stored label → stored' label) (htext : ∀ label, text label → text' label)
    {operation : Operation} (h : operation.IsClosed callable stored text) :
    operation.IsClosed callable' stored' text' := by
  cases operation with
  | la dst address =>
      cases address with
      | indexed _ _ => trivial
      | label label => exact Or.imp (hstored label) (htext label) h
  | lw dst address =>
      cases address with
      | indexed _ _ => trivial
      | label label => exact hstored label h
  | jal label => exact hcallable label h
  | _ => trivial

namespace Script

def IsClosed (calls : Label → Nat → Prop) (stored : Label → Prop) (pool : StringPool)
    (script : Script) : Prop :=
  ∀ line ∈ script.lines, ∀ instr ∈ line.instr?, instr.operation.IsClosed
    (fun label => ∃ words, calls label words) stored
    fun label => ∃ text, pool.lookup text = some label

variable {calls : Label → Nat → Prop} {stored : Label → Prop} {pool : StringPool}

theorem IsClosed.mono {script : Script} {pool' : StringPool} (h : script.IsClosed calls stored pool)
    (hle : pool.Le pool') : script.IsClosed calls stored pool' :=
  fun line hline instr hinstr => (h line hline instr hinstr).mono (fun _ => id) (fun _ => id)
    fun _ ⟨text, htext⟩ => ⟨text, hle text _ htext⟩

theorem IsClosed.append {a b : Script} (ha : a.IsClosed calls stored pool)
    (hb : b.IsClosed calls stored pool) : IsClosed calls stored pool (a ++ b) := by
  intro line hline
  rw [lines_append, List.mem_append] at hline
  exact hline.elim (ha line) (hb line)

namespace Structured

variable {exit : Label} {targets marks : Marks} {c : Context} {d d' : Nat} {script : Script}

theorem strings_le (h : Structured calls stored exit targets c d script d' marks) :
    c.strings.Le (c.after script).strings := by
  induction h with
  | nil | call _ | branch _ _ | leave | mark _ => exact .refl _
  | append _ _ iha ihb =>
      rw [Context.after_append]
      exact iha.trans ihb
  | @step _ c _ action h =>
      rw [Context.after_cons, h.context]
      exact .refl _
  | text c text _ =>
      rw [Context.after_append]
      exact c.le_after_pooling text
  | scope own _ _ _ ih =>
      rw [Context.after_append, Context.after_mints]
      exact ih

theorem isClosed (h : Structured calls stored exit targets c d script d' marks) :
    script.IsClosed calls stored (c.after script).strings := by
  induction h with
  | nil => simp [IsClosed]
  | append _ hb iha ihb =>
      rw [Context.after_append]
      exact (iha.mono hb.strings_le).append ihb
  | @step _ _ d action h =>
      cases action with
      | emit line =>
          cases line with
          | op instr =>
              simpa [IsClosed, Action.lines, Line.instr?] using
                Operation.isClosed_of_keepsStack h.1 h.2.2
          | comment text => simp [IsClosed, Action.lines, Line.instr?]
          | label _ _ | region _ => cases h
      | push _ | pop _ => simp [IsClosed, Action.lines, Line.instr?, Operation.IsClosed]
      | release _ | mint | pool _ _ => cases h
  | call h =>
      simpa [IsClosed, Action.lines, Action.op, Line.instr?, Operation.IsClosed] using ⟨_, h⟩
  | text c text comment =>
      refine IsClosed.append ?_ ?_
      · unfold Context.pooling
        split <;> simp [IsClosed, Action.lines, Line.instr?, Operation.IsClosed]
      · have hlookup : (c.after (c.pooling text ++ [c.opWith (.la .t0 (.label
            (c.stringLabel text))) comment])).strings.lookup text = some (c.stringLabel text) := by
          rw [Context.after_append]
          exact c.lookup_after_pooling text
        have hclosed : stored (c.stringLabel text) ∨ ∃ text', (c.after (c.pooling text ++ [c.opWith
            (.la .t0 (.label (c.stringLabel text))) comment])).strings.lookup text' =
              some (c.stringLabel text) := .inr ⟨text, hlookup⟩
        simpa only [IsClosed, Script.lines_cons, Script.lines_nil, Action.lines, Context.opWith,
          List.append_nil, List.forall_mem_singleton, Line.instr?, Option.mem_some_iff,
          forall_eq', Operation.IsClosed] using hclosed
  | branch h _ =>
      simpa [IsClosed, Action.lines, Action.op, Line.instr?] using
        Operation.isClosed_of_keepsStack (Operation.keepsStack_of_branch? h)
          (by simp [Operation.datum?_of_branch? h])
  | leave => simp [IsClosed, Action.lines, Action.op, Line.instr?, Operation.IsClosed]
  | mark _ => simp [IsClosed, Action.lines, Line.instr?]
  | scope own _ _ _ ih =>
      refine IsClosed.append (by simp [IsClosed, lines_mints]) ?_
      rw [Context.after_append, Context.after_mints]
      exact ih

end Structured

end Script

end StackMips
