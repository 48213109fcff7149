import Mathlib.Algebra.Group.Int.Defs
import Mathlib.Algebra.Group.Nat.Defs
import StackMips.Proofs.Analysis
import StackMips.Proofs.Lowering.Stmt

/-!
# Code of whole programs

Every function of a clean program is lowered from an empty operand stack to an empty operand stack,
so the generator performs the script of the program.
-/

namespace StackMips

open Mips

/-! ## Frames -/

theorem fitsWord_iff {n : Int} : fitsWord n ↔ -2 ^ 31 ≤ n ∧ n < 2 ^ 31 := by
  simp [fitsWord]

theorem addSizes_eq {m n : Int} (h : fitsWord (m + n)) : addSizes m n = .ok (m + n) :=
  if_pos h

theorem below_eq {size : Int} (h : fitsWord (-size)) : below size = .ok (-size) :=
  if_pos h

/-- The parameters and the linkage of a frame are measured by a signed machine word. -/
structure FunctionInfo.Fits (info : FunctionInfo) : Prop where
  nonneg : 0 ≤ info.paramsSize
  bounded : info.paramsSize + linkageSize < 2 ^ 31

/-- Everything between the first parameter and the locals has an offset. -/
theorem FunctionInfo.Fits.fitsWord {info : FunctionInfo} (h : info.Fits) {n : Int}
    (hlow : -(info.paramsSize + linkageSize) ≤ n) (hhigh : n ≤ info.paramsSize + linkageSize) :
    StackMips.fitsWord n := by
  obtain ⟨_, hbounded⟩ := h
  rw [fitsWord_iff]
  omega

namespace Context

@[simp] theorem depth_storeWord (register : Register) (d : Nat) :
    Script.depth d (storeWord register) = d := rfl

@[simp] theorem after_storeWord (c : Context) (register : Register) :
    c.after (storeWord register) = c := rfl

@[simp] theorem depth_prologue (c : Context) (name : String) (info : FunctionInfo) (d : Nat) :
    Script.depth d (c.prologue name info) = d := by
  unfold prologue
  split <;> split <;> simp

@[simp] theorem after_prologue (c c' : Context) (name : String) (info : FunctionInfo) :
    c'.after (c.prologue name info) = c' := by
  unfold prologue
  split <;> split <;> simp

@[simp] theorem depth_epilogue (c : Context) (exit : Label) (name : String) (info : FunctionInfo)
    (d : Nat) : Script.depth d (c.epilogue exit name info) = d := by
  unfold epilogue
  split <;> simp

@[simp] theorem depth_exiting (c : Context) (name : String) (d : Nat) :
    Script.depth d (c.exiting name) = d := by
  unfold exiting
  split <;> rfl

@[simp] theorem lines_exiting (c : Context) (name : String) :
    Script.lines (c.exiting name) = [] := by
  unfold exiting
  split <;> rfl

@[simp] theorem prologue_after (c : Context) (script : Script) (name : String)
    (info : FunctionInfo) : (c.after script).prologue name info = c.prologue name info := by
  simp [prologue]

@[simp] theorem epilogue_after (c : Context) (script : Script) (exit : Label) (name : String)
    (info : FunctionInfo) :
    (c.after script).epilogue exit name info = c.epilogue exit name info := by
  simp [epilogue]

end Context

namespace Gen

theorem storeWord_apply (register : Register) (g : Generator) :
    storeWord register g = .ok () (g.perform (Context.storeWord register)) :=
  (bind_of_ok (op_apply _ g)).trans (op_apply _ _)

theorem exitLabel_apply (name : String) (g : Generator) :
    exitLabel name g = .ok (g.context.exitLabel name) (g.perform (g.context.exiting name)) := by
  rw [exitLabel, get_bind, Context.exitLabel, Context.exiting]
  cases g.context.isEntryPoint name
  · exact freshLabel_apply g
  · rfl

theorem prologue_performs (name : String) {info : FunctionInfo} (h : info.Fits) (g : Generator) :
    Performs (prologue name info) g (g.context.prologue name info) [] := by
  have hnonneg := h.nonneg
  have hlinkage : linkageSize = 8 := rfl
  have hsize := addSizes_eq (h.fitsWord (n := info.paramsSize + linkageSize)
    (by omega) (by omega))
  refine Performs.of_eq (.step (functionLabel_apply name g) (.step (region_apply _ _)
    (.get (.when (fun _ => op_apply _ _) (.step (comment_apply _ _)
      (.step (defineLabel_apply _ _) (.step (storeWord_apply _ _) (.step (storeWord_apply _ _)
        (.lift hsize (.step (opWith_apply _ _ _)
          (.lastly fun _ => opWith_apply _ _ _))))))))))) ?_ rfl
  simp [Context.prologue]

theorem epilogue_performs (name : String) {info : FunctionInfo} (h : info.Fits) (g : Generator) :
    Performs (epilogue name info) g (g.context.epilogue g.exit name info) [] := by
  have hnonneg := h.nonneg
  have hlinkage : linkageSize = 8 := rfl
  have hwordSize : wordSize = 4 := rfl
  have hparams := below_eq (h.fitsWord (n := -info.paramsSize)
    (by omega) (by omega))
  have hword := addSizes_eq (h.fitsWord (n := info.paramsSize + wordSize)
    (by omega) (by omega))
  have hbelow := below_eq (h.fitsWord (n := -(info.paramsSize + wordSize))
    (by omega) (by omega))
  have hleave : ∀ g : Generator, Performs (do
      if (← get).context.isEntryPoint name then
        opWith (.li .v0 (Syscall.number .exit)) "load exit code for syscall"
        opWith .syscall "only for main exit"
      else
        opWith (.jr .ra) "return") g
      (if g.context.isEntryPoint name then
        [g.context.opWith (.li .v0 (Syscall.number .exit)) "load exit code for syscall",
          g.context.opWith .syscall "only for main exit"]
      else [g.context.opWith (.jr .ra) "return"]) [] := by
    intro g
    refine .get (.ok ?_)
    cases g.context.isEntryPoint name
    · exact opWith_apply _ _ g
    · exact (bind_of_ok (opWith_apply _ _ g)).trans (opWith_apply _ _ _)
  refine Performs.of_eq (.step (comment_apply _ g) (.get (.step (defineLabel_apply _ _)
    (.lift hparams (.step (opWith_apply _ _ _) (.step (opWith_apply _ _ _) (.lift hword
      (.lift hbelow (.step (opWith_apply _ _ _) (.step (opWith_apply _ _ _)
        (hleave _))))))))))) ?_ rfl
  simp [Context.epilogue]

end Gen

/-! ## Functions -/

namespace Generator

def leaving (g : Generator) (exit : Label) : Generator := { g with exit }

@[simp] theorem context_leaving (g : Generator) (exit : Label) :
    (g.leaving exit).context = g.context := rfl

@[simp] theorem depth_leaving (g : Generator) (exit : Label) :
    (g.leaving exit).depth = g.depth := rfl

@[simp] theorem exit_leaving (g : Generator) (exit : Label) : (g.leaving exit).exit = exit := rfl

theorem perform_leaving (g : Generator) (exit : Label) (script : Script) :
    (g.leaving exit).perform script = (g.perform script).leaving exit := by
  induction script generalizing g with
  | nil => rfl
  | cons action script ih =>
      have happly : action.apply (g.leaving exit) = (action.apply g).leaving exit := by
        cases action <;> rfl
      rw [perform_cons, happly, ih, ← perform_cons]

end Generator

def Generates (m : Gen Unit) (g : Generator) (script : Script) (blocked : List Unsupported) :
    Prop :=
  match blocked with
  | [] => ∃ exit, m g = .ok () ((g.perform script).leaving exit)
  | u :: _ => ∃ g', m g = .error (.unsupported u) g'

namespace Generates

variable {m k : Gen Unit} {g : Generator} {script rest : Script}
  {blocked more : List Unsupported}

theorem of_performs (h : Performs m g script blocked) : Generates m g script blocked := by
  cases blocked with
  | nil => exact ⟨g.exit, by rw [← Generator.perform_leaving]; exact h⟩
  | cons u blocked => exact h

theorem seq (hm : Generates m g script blocked)
    (hk : blocked = [] → ∀ exit, Generates k ((g.perform script).leaving exit) rest more) :
    Generates (do m; k) g (script ++ rest) (blocked ++ more) := by
  cases blocked with
  | nil =>
      obtain ⟨exit, hm⟩ := hm
      have hk := hk rfl exit
      rw [List.nil_append]
      cases more with
      | nil =>
          obtain ⟨exit', hk⟩ := hk
          refine ⟨exit', (Gen.bind_of_ok hm).trans (hk.trans ?_)⟩
          rw [Generator.perform_leaving, Generator.perform_append]
          rfl
      | cons u more =>
          obtain ⟨g', hk⟩ := hk
          exact ⟨g', (Gen.bind_of_ok hm).trans hk⟩
  | cons u blocked =>
      obtain ⟨g', hm⟩ := hm
      exact ⟨g', Gen.bind_of_error hm⟩

end Generates

namespace FnDecl

variable {symbols : Arena} {index : Nat} {fn : FnDecl}

theorem Framed.info_eq (h : fn.Framed symbols index) : fn.info symbols = .ok fn.signature := by
  have hsymbol : symbols.symbol? fn.id = symbols.get? index := by rw [Arena.symbol?, h.link]; rfl
  rw [info, Ident.symbol_eq (hsymbol.trans h.symbol)]
  rfl

theorem signature_fits (h : fn.declCount < 2 ^ 28) : fn.signature.Fits where
  nonneg := by simp only [signature, wordSize]; omega
  bounded := by
    simp only [signature, linkageSize, wordSize]
    simp only [declCount] at h
    omega

def beforePrologue (fn : FnDecl) (g : Generator) : Generator :=
  (g.perform (g.context.exiting fn.id.name)).leaving (g.context.exitLabel fn.id.name)

/-- Lowering a function is lowering its parts once the exit label is known. -/
theorem lower_eq (h : fn.Framed symbols index) {g : Generator} (hg : g.context.symbols = symbols) :
    fn.lower g = (do
      Gen.prologue fn.id.name fn.signature
      let depth := (← get).depth
      if depth ≠ 0 then
        Gen.fault (.entryDepth depth)
      fn.body.lower
      Gen.epilogue fn.id.name fn.signature : Gen Unit) (fn.beforePrologue g) := by
  rw [lower, Gen.get_bind, Gen.liftM_bind (hg ▸ h.info_eq),
    Gen.bind_of_ok (Gen.exitLabel_apply _ g)]
  rfl

theorem lower_generates (hframed : fn.Framed symbols index) (hfits : fn.signature.Fits)
    (hbody : fn.body.Lowers symbols) {g : Generator} (hg : g.context.symbols = symbols)
    (hdepth : g.depth = 0) : Generates fn.lower g (fn.script g.context) fn.body.blocked := by
  have hperforms : Performs (do
      Gen.prologue fn.id.name fn.signature
      let depth := (← get).depth
      if depth ≠ 0 then
        Gen.fault (.entryDepth depth)
      fn.body.lower
      Gen.epilogue fn.id.name fn.signature) (fn.beforePrologue g)
      (g.context.prologue fn.id.name fn.signature ++ fn.bodyScript g.context ++
        g.context.epilogue (g.context.exitLabel fn.id.name) fn.id.name fn.signature)
      fn.body.blocked := by
    refine Performs.of_eq (.step (Gen.prologue_performs _ hfits _) (.get (.skip ?_
      ((hbody.performs _ (by simpa [beforePrologue] using hg)).seq fun _ =>
        Gen.epilogue_performs _ hfits _)))) ?_ ?_
    · simp [beforePrologue, hdepth]
    · simp [beforePrologue, bodyScript, bodyContext]
    · simp
  have hrun := lower_eq hframed hg
  cases hblocked : fn.body.blocked with
  | nil =>
      rw [hblocked] at hperforms
      refine ⟨g.context.exitLabel fn.id.name, hrun.trans (Eq.trans hperforms ?_)⟩
      rw [beforePrologue, Generator.perform_leaving, ← Generator.perform_append]
      simp only [script, List.append_assoc]
  | cons u rest =>
      rw [hblocked] at hperforms
      obtain ⟨g', hg'⟩ := hperforms
      exact ⟨g', hrun.trans hg'⟩

theorem lines_script (c : Context) (fn : FnDecl) : (fn.script c).lines =
    (c.prologue fn.id.name fn.signature).lines ++ ((fn.bodyScript c).lines ++
      (c.epilogue (c.exitLabel fn.id.name) fn.id.name fn.signature).lines) := by
  simp [script]

theorem depth_script (hbody : fn.body.Lowers symbols) {c : Context} (hc : c.symbols = symbols)
    (hblocked : fn.body.blocked = []) (d : Nat) : Script.depth d (fn.script c) = d := by
  simp [script, bodyScript, bodyContext, hbody.depth, hc, hblocked]

end FnDecl

/-! ## Programs -/

namespace Decl

def Lowers (symbols : Arena) : Decl → Prop
  | .fn decl =>
    (∃ index, decl.Framed symbols index) ∧ decl.signature.Fits ∧ decl.body.Lowers symbols
  | .var _ | .struct _ => True

def blocked : Decl → List Unsupported
  | .fn decl => decl.body.blocked
  | .var _ | .struct _ => []

theorem depth_script {symbols : Arena} {decl : Decl} (h : decl.Lowers symbols) {c : Context}
    (hc : c.symbols = symbols) (hblocked : decl.blocked = []) (d : Nat) :
    Script.depth d (decl.script c) = d := by
  cases decl with
  | var _ | struct _ => rfl
  | fn fn => exact FnDecl.depth_script h.2.2 hc hblocked d

theorem lower_generates {symbols : Arena} {decl : Decl} (h : decl.Lowers symbols) {g : Generator}
    (hg : g.context.symbols = symbols) (hdepth : g.depth = 0) :
    Generates decl.lower g (decl.script g.context) decl.blocked := by
  cases decl with
  | var decl =>
      have hglobal : Performs (Gen.global decl) g (Decl.script g.context (.var decl)) [] :=
        .step (Gen.region_apply _ g) (.step (Gen.opWith_apply _ _ _) (.ok (Gen.emit_apply _ _)))
      exact .of_performs hglobal
  | struct decl => exact ⟨g.exit, rfl⟩
  | fn fn =>
      obtain ⟨⟨index, hframed⟩, hfits, hbody⟩ := h
      exact fn.lower_generates hframed hfits hbody hg hdepth

theorem lowerAll_generates {symbols : Arena} {decls : List Decl}
    (h : ∀ decl ∈ decls, decl.Lowers symbols) {g : Generator} (hg : g.context.symbols = symbols)
    (hdepth : g.depth = 0) :
    Generates (lowerAll decls) g (scriptAll g.context decls) (decls.flatMap blocked) := by
  induction decls generalizing g with
  | nil => exact .of_performs (.ok rfl)
  | cons decl decls ih =>
      obtain ⟨hdecl, hdecls⟩ := List.forall_mem_cons.mp h
      have hrest := fun (hblocked : decl.blocked = []) (exit : Label) =>
        ih (g := (g.perform (decl.script g.context)).leaving exit) hdecls (by simpa using hg)
          (by simp [hdepth, depth_script hdecl hg hblocked])
      simp only [Generator.context_leaving, Generator.context_perform] at hrest
      exact (lower_generates hdecl hg hdepth).seq hrest

end Decl

theorem Program.blocked_eq (program : Program) :
    program.blocked = program.decls.flatMap Decl.blocked := by
  obtain ⟨decls⟩ := program
  induction decls with
  | nil => rfl
  | cons decl decls ih =>
      simp only [blocked, functions] at ih
      cases decl <;> simp [blocked, functions, Decl.blocked, ih]

theorem Resolved.Clean.body_lowers {resolved : Resolved} (h : resolved.Clean) {fn : FnDecl}
    (hfn : fn ∈ resolved.program.functions) : fn.body.Lowers resolved.context.symbols :=
  Block.lowers h.complete.typed fn.returnType.isReturnable_toTy (h.typed fn hfn) (h.grammar fn hfn)

/-- The declarations of a clean program have code, as far as their frames can be measured. -/
theorem Resolved.Clean.lowers {resolved : Resolved} (h : resolved.Clean)
    (hfits : ∀ fn ∈ resolved.program.functions, fn.signature.Fits) :
    ∀ decl ∈ resolved.program.decls, decl.Lowers resolved.context.symbols := by
  intro decl hdecl
  cases decl with
  | var _ | struct _ => trivial
  | fn fn =>
      have hfn := Program.mem_functions.mpr hdecl
      obtain ⟨index, _, hframed, _⟩ := h.functions fn hfn
      exact ⟨⟨index, hframed⟩, hfits fn hfn, h.body_lowers hfn⟩

/-- Generation of a clean program follows its script, up to the first field access. -/
theorem Resolved.Clean.lowerAll_generates {resolved : Resolved} (h : resolved.Clean)
    (hfits : ∀ fn ∈ resolved.program.functions, fn.signature.Fits) :
    Generates (Decl.lowerAll resolved.program.decls) { context := resolved.context }
      (Decl.scriptAll resolved.context resolved.program.decls) resolved.program.blocked := by
  rw [Program.blocked_eq]
  exact Decl.lowerAll_generates (h.lowers hfits) rfl rfl

/-- The assembly that the script of a resolved program leaves behind. -/
def Resolved.code (resolved : Resolved) : Assembly :=
  (Generator.perform { context := resolved.context }
    (Decl.scriptAll resolved.context resolved.program.decls)).assembly

def Program.code (program : Program) (options : Options) : Assembly :=
  (program.linked { options }).code

end StackMips
