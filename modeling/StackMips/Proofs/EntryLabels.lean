import StackMips.Proofs.LabelClosure

/-!
# Labels of the entry function

The entry function keeps its name as its label, and its exit label is made from the name.  All other
functions and the global variables get an underscore in front of their names, and all other labels
come from the counter.  Whether these labels can meet depends on the name of the entry function:
this module says exactly when they do.
-/

namespace StackMips

open Mips

/-! ## Labels that meet -/

/-- A label from the counter has no small letters. -/
theorem Context.synthetic_ne_exit (n : Nat) (name : String) :
    Context.synthetic n ≠ name ++ "_Exit" := by
  intro h
  have hchars : ".L".toList ++ n.repr.toList = name.toList ++ "_Exit".toList := by
    rw [← String.toList_append, ← String.toList_append]
    exact congrArg String.toList h
  have hmem : 't' ∈ ".L".toList ++ n.repr.toList := by
    rw [hchars, List.mem_append]
    exact .inr (by decide)
  rcases List.mem_append.mp hmem with hmem | hmem
  · exact absurd hmem (by decide)
  · rw [Nat.toList_repr] at hmem
    cases Nat.isDigit_of_mem_toDigits (by decide) (by decide) hmem

/-- Whether the label that is made from a name with an underscore is one of the two labels of the
entry function. -/
def Mips.meetsEntry (entry name : String) : Bool :=
  entry == "_" ++ name || entry ++ "_Exit" == "_" ++ name

/-- Whether a declaration other than the entry function has one of the labels of the entry
function. -/
def Decl.meetsEntry (entry : String) : Decl → Bool
  | .var decl => Mips.meetsEntry entry decl.id.name
  | .fn decl => decl.id.name != entry && Mips.meetsEntry entry decl.id.name
  | .struct _ => false

/-- A plain name of the entry function starts with another character than an underscore. -/
theorem Options.HasPlainEntry.meetsEntry {options : Options} (h : options.HasPlainEntry)
    (name : String) : Mips.meetsEntry options.entryPoint name = false := by
  have hnonempty : options.entryPoint.toList ≠ [] := by simpa using h.nonempty
  have hne : ∀ label : Label, label.toList.head? = options.entryPoint.toList.head? →
      label ≠ "_" ++ name := by
    rintro label hhead rfl
    exact h.underscore (hhead.symm.trans (Decl.head?_underscore name))
  rw [Mips.meetsEntry, Bool.or_eq_false_iff, beq_eq_false_iff_ne, beq_eq_false_iff_ne]
  refine ⟨hne _ rfl, hne _ ?_⟩
  rw [String.toList_append, List.head?_append_of_ne_nil _ hnonempty]

theorem Options.HasPlainEntry.synthetic_ne {options : Options} (h : options.HasPlainEntry)
    (n : Nat) : Context.synthetic n ≠ options.entryPoint := by
  intro heq
  have hdot := Context.isSynthetic_synthetic n
  rw [heq, isSynthetic, beq_iff_eq] at hdot
  exact h.dot hdot

namespace Decl

variable {base : Context} {decl : Decl}

theorem namedLabels_unlink (base : Context) (decl : Decl) :
    decl.unlink.namedLabels base = decl.namedLabels base := by
  cases decl <;> rfl

theorem name_unlink (decl : Decl) : decl.unlink.id.name = decl.id.name := by
  cases decl <;> rfl

/-- A declaration with another name than the entry function has one of its labels exactly if they
meet. -/
theorem meetsEntry_iff (h : decl.id.name ≠ base.options.entryPoint) :
    decl.meetsEntry base.options.entryPoint ↔
      base.options.entryPoint ∈ decl.namedLabels base ∨
        base.options.entryPoint ++ "_Exit" ∈ decl.namedLabels base := by
  cases decl with
  | var decl =>
      rw [namedLabels, globalLabel]
      simp [meetsEntry, Mips.meetsEntry]
  | fn decl =>
      have hname : (decl.id.name == base.options.entryPoint) = false := beq_false_of_ne h
      rw [namedLabels, Context.isEntryPoint, hname]
      simp [meetsEntry, Mips.meetsEntry, hname, bne]
  | struct decl => simp [meetsEntry, namedLabels]

/-- The labels of the entry function are not among those from the counter and those of other
declarations exactly if none of these meets them. -/
theorem not_mem_iff_meetsEntry {n : Nat} {decls : List Decl}
    (h : ∀ decl ∈ decls, decl.id.name ≠ base.options.entryPoint) :
    (∀ label ∈ [base.options.entryPoint, base.options.entryPoint ++ "_Exit"],
      label ∉ (List.range n).map Context.synthetic ++ decls.flatMap (namedLabels base)) ↔
    (∀ k < n, Context.synthetic k ≠ base.options.entryPoint) ∧
      ∀ decl ∈ decls, decl.meetsEntry base.options.entryPoint = false := by
  have hmeets : ∀ decl ∈ decls, decl.meetsEntry base.options.entryPoint = false ↔
      ∀ label ∈ [base.options.entryPoint, base.options.entryPoint ++ "_Exit"],
        label ∉ decl.namedLabels base := by
    intro decl hdecl
    rw [← Bool.not_eq_true, meetsEntry_iff (h decl hdecl)]
    simp
  constructor
  · intro hnot
    refine ⟨fun k hk heq => ?_,
      fun decl hdecl => (hmeets decl hdecl).mpr fun label hlabel hmem => ?_⟩
    · refine hnot base.options.entryPoint (by simp) (List.mem_append_left _ ?_)
      rw [← heq]
      exact List.mem_map_of_mem (List.mem_range.mpr hk)
    · exact hnot label hlabel (List.mem_append_right _ (List.mem_flatMap.mpr ⟨decl, hdecl, hmem⟩))
  · rintro ⟨hcounter, hdecls⟩ label hlabel hmem
    rcases List.mem_append.mp hmem with hmem | hmem
    · obtain ⟨k, hk, rfl⟩ := List.mem_map.mp hmem
      rcases List.mem_pair.mp hlabel with heq | heq
      · exact hcounter k (List.mem_range.mp hk) heq
      · exact Context.synthetic_ne_exit k _ heq
    · obtain ⟨decl, hdecl, hmem⟩ := List.mem_flatMap.mp hmem
      exact (hmeets decl hdecl).mp (hdecls decl hdecl) label hlabel hmem

end Decl

/-! ## Labels of accepted programs -/

theorem count_eq_one_iff {labels rest : List Label} {a b : Label} (hne : a ≠ b)
    (hperm : labels.Perm ([a, b] ++ rest)) :
    labels.count a = 1 ∧ labels.count b = 1 ↔ ∀ label ∈ [a, b], label ∉ rest := by
  rw [hperm.count_eq, hperm.count_eq, List.count_append, List.count_append]
  simp [hne, hne.symm, List.count_eq_zero]

namespace Resolved.Emits

variable {program : Program} {options : Options} {resolved : Resolved} {assembly : Assembly}
  (hanalyze : program.analyze { options } = .done resolved []) (h : resolved.Emits assembly)

include hanalyze h in
/-- The labels of an assembly come from the counter and from the names of the declarations. -/
theorem labels_perm : ∃ n, assembly.labels.Perm ((List.range n).map Context.synthetic ++
    program.decls.flatMap (Decl.namedLabels { options })) := by
  obtain ⟨n, -, hperm⟩ := Decl.defines_all (h.isStructured hanalyze) ⟨rfl, rfl⟩
  have hoptions : Decl.namedLabels resolved.context = Decl.namedLabels { options } := by
    rw [(Program.clean_of_analyze hanalyze).1]
    rfl
  have hdecls : program.decls = resolved.program.decls.map Decl.unlink :=
    congrArg Program.decls (Program.unlink_of_resolve (Program.resolve_of_analyze hanalyze)).symm
  rw [(fresh hanalyze).1, ← List.range_eq_range', hoptions] at hperm
  refine ⟨n, ?_⟩
  rw [Assembly.labels, h.lines, hdecls, List.flatMap_map]
  simp only [Decl.namedLabels_unlink]
  exact hperm

end Resolved.Emits

namespace Program

/-- The entry function of a program that is resolved without a report is the only declaration with
its name. -/
theorem exists_entry_decl {program : Program} {options : Options} {resolved : Resolved}
    (h : program.resolve { options } = .done resolved []) :
    ∃ before fn behind, program.decls = before ++ .fn fn :: behind ∧
      fn.id.name = options.entryPoint ∧
      ∀ decl ∈ before ++ behind, decl.id.name ≠ options.entryPoint := by
  have hdecls : program.decls = resolved.program.decls.map Decl.unlink :=
    congrArg decls (unlink_of_resolve h).symm
  have hnames : (program.decls.map (·.id.name)).Nodup := by
    rw [hdecls, List.map_map]
    simpa only [Function.comp_def, Decl.name_unlink] using nodup_names h
  obtain ⟨fn, hfn, hname⟩ := exists_entry h
  have hmem : Decl.fn fn.unlink ∈ program.decls := by
    rw [hdecls]
    exact List.mem_map_of_mem hfn
  obtain ⟨before, behind, hsplit⟩ := List.mem_iff_append.mp hmem
  refine ⟨before, fn.unlink, behind, hsplit, hname, fun decl hdecl heq => ?_⟩
  have hperm : program.decls.Perm (.fn fn.unlink :: (before ++ behind)) := by
    rw [hsplit]
    exact List.perm_middle
  rw [(hperm.map _).nodup_iff, List.map_cons, List.nodup_cons] at hnames
  exact hnames.1 (List.mem_map.mpr ⟨decl, hdecl, heq.trans hname.symm⟩)

/-- The labels of an accepted program come from the counter and from the names of the declarations.
The two labels of the entry function are defined once exactly if no label from the counter is the
name of the entry function, and no other declaration has one of the two labels.  This is so if the
name of the entry function is plain. -/
theorem entry_labels_once_iff {program linked : Program} {options : Options} {assembly : Assembly}
    (hcompile : program.compile options = .ok (linked, .ok assembly)) :
    ∃ n, assembly.labels.Perm ((List.range n).map Context.synthetic ++
        program.decls.flatMap (Decl.namedLabels { options })) ∧
      (assembly.labels.count options.entryPoint = 1 ∧
          assembly.labels.count (options.entryPoint ++ "_Exit") = 1 ↔
        (∀ k < n, Context.synthetic k ≠ options.entryPoint) ∧
          ∀ decl ∈ program.decls, decl.meetsEntry options.entryPoint = false) ∧
      (options.HasPlainEntry → assembly.labels.count options.entryPoint = 1 ∧
        assembly.labels.count (options.entryPoint ++ "_Exit") = 1) := by
  obtain ⟨resolved, hanalyze, -, -, hemits⟩ := emits_of_compile hcompile
  obtain ⟨n, hperm⟩ := hemits.labels_perm hanalyze
  obtain ⟨before, fn, behind, hdecls, hname, hothers⟩ :=
    exists_entry_decl (resolve_of_analyze hanalyze)
  have hnamed : Decl.namedLabels { options } (.fn fn) =
      [options.entryPoint, options.entryPoint ++ "_Exit"] := by
    simp [Decl.namedLabels, Context.isEntryPoint, hname]
  have hne : options.entryPoint ≠ options.entryPoint ++ "_Exit" := fun h => by
    simpa using congrArg String.length h
  have hsplit : assembly.labels.Perm ([options.entryPoint, options.entryPoint ++ "_Exit"] ++
      ((List.range n).map Context.synthetic ++
        (before ++ behind).flatMap (Decl.namedLabels { options }))) := by
    have hmiddle : program.decls.Perm (.fn fn :: (before ++ behind)) := by
      rw [hdecls]
      exact List.perm_middle
    refine hperm.trans ((hmiddle.flatMap_right _).append_left _ |>.trans ?_)
    rw [List.flatMap_cons, hnamed]
    exact List.perm_append_comm_assoc _ _ _
  have honce : assembly.labels.count options.entryPoint = 1 ∧
        assembly.labels.count (options.entryPoint ++ "_Exit") = 1 ↔
      (∀ k < n, Context.synthetic k ≠ options.entryPoint) ∧
        ∀ decl ∈ program.decls, decl.meetsEntry options.entryPoint = false := by
    have hentry : (Decl.fn fn).meetsEntry options.entryPoint = false := by
      simp [Decl.meetsEntry, hname]
    refine (count_eq_one_iff hne hsplit).trans
      ((@Decl.not_mem_iff_meetsEntry { options } n _ hothers).trans ?_)
    rw [hdecls, List.forall_mem_append, List.forall_mem_append, List.forall_mem_cons]
    simp only [hentry, true_and]
  refine ⟨n, hperm, honce, fun hplain => honce.mpr ⟨fun k _ => hplain.synthetic_ne k, ?_⟩⟩
  intro decl _
  cases decl <;> simp [Decl.meetsEntry, hplain.meetsEntry]

/-- Two functions whose names differ by an underscore in front. -/
def underscored : Program where
  decls := [
    .fn ⟨.void, ⟨"f", ⟨1, 6⟩, none⟩, [], ⟨[], []⟩⟩,
    .fn ⟨.void, ⟨"_f", ⟨2, 6⟩, none⟩, [], ⟨[], []⟩⟩]

/-- If the function without the underscore is the entry point, no labels meet. -/
theorem underscored_labels_once : ∃ linked,
    underscored.compile { entryPoint := "f" } =
        .ok (linked, .ok (underscored.code { entryPoint := "f" })) ∧
      (underscored.code { entryPoint := "f" }).labels.count "f" = 1 ∧
      (underscored.code { entryPoint := "f" }).labels.count "f_Exit" = 1 := by
  have hcompile : underscored.compile { entryPoint := "f" } = .ok
      ((underscored.linked { options := { entryPoint := "f" } }).program,
        .ok (underscored.code { entryPoint := "f" })) :=
    compile_of_check (by decide) (by decide) (by decide) rfl rfl rfl
  obtain ⟨_, -, -, hplain⟩ := entry_labels_once_iff hcompile
  exact ⟨_, hcompile, hplain ⟨by decide, by decide, by decide⟩⟩

/-- If the function with the underscore is the entry point, its label is defined twice. -/
theorem underscored_labels_meet : ∃ linked,
    underscored.compile { entryPoint := "_f" } =
        .ok (linked, .ok (underscored.code { entryPoint := "_f" })) ∧
      (underscored.code { entryPoint := "_f" }).labels = ["_f", ".L0", "_f", "_f_Exit"] := by
  have hcompile : underscored.compile { entryPoint := "_f" } = .ok
      ((underscored.linked { options := { entryPoint := "_f" } }).program,
        .ok (underscored.code { entryPoint := "_f" })) :=
    compile_of_check (by decide) (by decide) (by decide) rfl rfl rfl
  exact ⟨_, hcompile, by decide +kernel⟩

end Program

end StackMips
