import StackMips.Proofs.Outcome

/-!
# Accepted programs

What is known once code has been emitted: no frame was too large, no field was accessed, and the
lines of the assembly are those of the scripts of the declarations.
-/

namespace StackMips

open Mips

/-! ## Commands that end well -/

namespace Gen

variable {α β : Type}

theorem bind_eq_ok {m : Gen α} {f : α → Gen β} {g g' : Generator} {b : β}
    (h : (m >>= f) g = .ok b g') : ∃ a mid, m g = .ok a mid ∧ f a mid = .ok b g' := by
  cases hm : m g with
  | ok a mid => exact ⟨a, mid, rfl, (bind_of_ok hm).symm.trans h⟩
  | error stop mid => cases (bind_of_error hm).symm.trans h

theorem liftM_eq_ok {x : Except Fault α} {a : α} {g g' : Generator}
    (h : (liftM x : Gen α) g = .ok a g') : x = .ok a ∧ g' = g := by
  cases x with
  | error fault => cases h
  | ok b =>
      cases h
      exact ⟨rfl, rfl⟩

theorem fitsWord_of_addSizes {m n size : Int} (h : addSizes m n = .ok size) :
    fitsWord (m + n) := by
  unfold addSizes at h
  split at h
  · assumption
  · cases h

/-- A prologue is emitted only if the frame can be measured. -/
theorem fits_of_prologue {name : String} {info : FunctionInfo} {g g' : Generator}
    (hparams : 0 ≤ info.paramsSize) (h : prologue name info g = .ok () g') : info.Fits := by
  refine ⟨hparams, ?_⟩
  obtain ⟨label, _, _, h⟩ := bind_eq_ok h
  obtain ⟨_, _, _, h⟩ := bind_eq_ok h
  obtain ⟨mid, _, _, h⟩ := bind_eq_ok h
  have hrest : ∀ {g : Generator}, (do
      comment "FUNCTION ENTRY"
      defineLabel label
      storeWord .ra
      storeWord .fp
      let size ← addSizes info.paramsSize linkageSize
      opWith (.alu .addu .fp .sp (.imm size)) "set the FP"
      if 0 < info.localsSize then
        opWith (.alu .subu .sp .sp (.imm info.localsSize)) "push space for locals" : Gen Unit) g =
      .ok () g' → info.paramsSize + linkageSize < 2 ^ 31 := by
    intro g h
    obtain ⟨_, _, _, h⟩ := bind_eq_ok h
    obtain ⟨_, _, _, h⟩ := bind_eq_ok h
    obtain ⟨_, _, _, h⟩ := bind_eq_ok h
    obtain ⟨_, _, _, h⟩ := bind_eq_ok h
    obtain ⟨_, _, hsize, -⟩ := bind_eq_ok h
    exact (fitsWord_iff.mp (fitsWord_of_addSizes (liftM_eq_ok hsize).1)).2
  by_cases hentry : mid.context.isEntryPoint name
  · simp only [if_pos hentry] at h
    obtain ⟨_, _, _, h⟩ := bind_eq_ok h
    exact hrest h
  · simp only [if_neg hentry] at h
    exact hrest h

end Gen

/-! ## Functions -/

theorem FnDecl.fits_of_lower {symbols : Arena} {index : Nat} {fn : FnDecl}
    (hframed : fn.Framed symbols index) {g g' : Generator} (hg : g.context.symbols = symbols)
    (h : fn.lower g = .ok () g') : fn.signature.Fits := by
  have hparams : 0 ≤ fn.signature.paramsSize := by
    simp only [signature, wordSize]
    omega
  rw [lower, Gen.get_bind, Gen.liftM_bind (hg ▸ hframed.info_eq)] at h
  obtain ⟨_, _, _, h⟩ := Gen.bind_eq_ok h
  obtain ⟨_, _, _, h⟩ := Gen.bind_eq_ok h
  obtain ⟨_, _, hprologue, -⟩ := Gen.bind_eq_ok h
  exact Gen.fits_of_prologue hparams hprologue

namespace Decl

theorem fits_of_lowerAll {symbols : Arena} {decls : List Decl}
    (h : ∀ fn, .fn fn ∈ decls → (∃ index, fn.Framed symbols index) ∧ fn.body.Lowers symbols)
    {g g' : Generator} (hg : g.context.symbols = symbols) (hdepth : g.depth = 0)
    (hlower : lowerAll decls g = .ok () g') : ∀ fn, .fn fn ∈ decls → fn.signature.Fits := by
  induction decls generalizing g with
  | nil => simp
  | cons decl decls ih =>
      obtain ⟨_, mid, hdecl, hdecls⟩ := Gen.bind_eq_ok hlower
      have hlowers : decl.Lowers symbols := by
        cases decl with
        | var _ | struct _ => trivial
        | fn fn =>
            obtain ⟨⟨index, hframed⟩, hbody⟩ := h fn (by simp)
            exact ⟨⟨index, hframed⟩, FnDecl.fits_of_lower hframed hg hdecl, hbody⟩
      have hgenerates := lower_generates hlowers hg hdepth
      cases hblocked : decl.blocked with
      | cons u rest =>
          rw [hblocked] at hgenerates
          obtain ⟨_, hstopped⟩ := hgenerates
          cases hdecl.symm.trans hstopped
      | nil =>
          rw [hblocked] at hgenerates
          obtain ⟨exit, hdone⟩ := hgenerates
          cases hdecl.symm.trans hdone
          intro fn hfn
          rcases List.mem_cons.mp hfn with rfl | hfn
          · exact hlowers.2.1
          · exact ih (fun fn hfn => h fn (by simp [hfn])) (by simpa using hg)
              (by simp [hdepth, depth_script hlowers hg hblocked]) hdecls fn hfn

end Decl

/-! ## Programs -/

/-- The assembly is the code of a program that was analyzed without a report. -/
structure Resolved.Emits (resolved : Resolved) (assembly : Assembly) : Prop where
  clean : resolved.Clean
  fits : ∀ fn ∈ resolved.program.functions, fn.signature.Fits
  blocked : resolved.program.blocked = []
  eq : assembly = resolved.code

theorem Resolved.Emits.lines {resolved : Resolved} {assembly : Assembly}
    (h : resolved.Emits assembly) :
    assembly.lines = (Decl.scriptAll resolved.context resolved.program.decls).lines := by
  rw [h.eq, code, Generator.assembly, Generator.lines_perform]
  rfl

/-- Generation of a clean program that ends well has followed the script. -/
theorem Resolved.Clean.emits {resolved : Resolved} (h : resolved.Clean) {g : Generator}
    (hlower : Decl.lowerAll resolved.program.decls { context := resolved.context } = .ok () g) :
    resolved.Emits g.assembly := by
  have hfits : ∀ fn ∈ resolved.program.functions, fn.signature.Fits := by
    intro fn hfn
    refine Decl.fits_of_lowerAll (fun fn hfn => ?_) rfl rfl hlower fn (Program.mem_functions.mp hfn)
    have hfn := Program.mem_functions.mpr hfn
    obtain ⟨index, _, hframed, _⟩ := h.functions fn hfn
    exact ⟨⟨index, hframed⟩, h.body_lowers hfn⟩
  have hgenerates := h.lowerAll_generates hfits
  cases hblocked : resolved.program.blocked with
  | cons u rest =>
      rw [hblocked] at hgenerates
      obtain ⟨_, hstopped⟩ := hgenerates
      cases hlower.symm.trans hstopped
  | nil =>
      rw [hblocked] at hgenerates
      obtain ⟨exit, hdone⟩ := hgenerates
      cases hlower.symm.trans hdone
      exact ⟨h, hfits, hblocked, rfl⟩

/-- A program compiles only if it is analyzed without a report, and then to the code of its
script. -/
theorem Program.emits_of_compile {program linked : Program} {options : Options}
    {assembly : Assembly} (h : program.compile options = .ok (linked, .ok assembly)) :
    ∃ resolved, program.analyze { options } = .done resolved [] ∧ linked = resolved.program ∧
      resolved.context.options = options ∧ resolved.Emits assembly := by
  rw [compile] at h
  cases hanalyze : program.analyze { options } with
  | stopped fault => simp [hanalyze] at h
  | done resolved reports =>
      cases reports with
      | cons report reports => simp [hanalyze] at h
      | nil =>
          obtain ⟨heq, hclean⟩ := clean_of_analyze hanalyze
          simp only [hanalyze, Generator.finish] at h
          cases hlower : Decl.lowerAll resolved.program.decls { context := resolved.context } with
          | error stop g => cases stop <;> simp [hlower] at h
          | ok u g =>
              simp only [hlower, Except.ok.injEq, Prod.mk.injEq] at h
              obtain ⟨rfl, rfl⟩ := h
              exact ⟨resolved, rfl, rfl, by rw [heq]; rfl, hclean.emits hlower⟩

end StackMips
