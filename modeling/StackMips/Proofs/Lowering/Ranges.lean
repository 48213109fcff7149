import StackMips.Proofs.Lowering.Accepted
import StackMips.Proofs.Lowering.Structured
import StackMips.Proofs.Resolution.TopLevel

/-!
# Ranges of lines

The lines of an assembly are those of its declarations, one after another.  The code of each
function is structured: what it calls are functions of the program, and what it names are global
variables.
-/

namespace StackMips

open Mips

/-! ## The generator on its way through a program -/

def Gen.emitted (m : Gen Unit) (g : Generator) : List Line :=
  match m g with
  | .ok _ g' => g'.lines.toList.drop g.lines.size
  | .error _ _ => []

theorem Gen.emitted_of_lines {m : Gen Unit} {g g' : Generator} {lines : List Line}
    (h : m g = .ok () g') (hlines : g'.lines.toList = g.lines.toList ++ lines) :
    emitted m g = lines := by
  rw [emitted, h]
  simp [hlines]

namespace Decl

/-- The declarations, each with the state in which the generator comes to it. -/
def visits (g : Generator) : List Decl → List (Decl × Generator)
  | [] => []
  | decl :: decls => (decl, g) ::
    match decl.lower g with
    | .ok _ g' => visits g' decls
    | .error _ _ => []

/-- Declarations without field accesses are all visited, from an empty operand stack, and their
scripts are followed. -/
theorem visits_spec {symbols : Arena} {decls : List Decl}
    (h : ∀ decl ∈ decls, decl.Lowers symbols ∧ decl.blocked = []) {g : Generator}
    (hg : g.context.symbols = symbols) (hdepth : g.depth = 0) :
    (visits g decls).map Prod.fst = decls ∧
      (visits g decls).flatMap (fun visit => Gen.emitted visit.1.lower visit.2) =
        (scriptAll g.context decls).lines ∧
      ∀ visit ∈ visits g decls, visit.1 ∈ decls ∧ visit.2.context.Like g.context ∧
        visit.2.depth = 0 ∧ Gen.emitted visit.1.lower visit.2 =
          (visit.1.script visit.2.context).lines := by
  induction decls generalizing g with
  | nil => simp [visits, scriptAll]
  | cons decl decls ih =>
      obtain ⟨⟨hlowers, hblocked⟩, hdecls⟩ := List.forall_mem_cons.mp h
      have hgenerates := lower_generates hlowers hg hdepth
      rw [hblocked] at hgenerates
      obtain ⟨exit, hrun⟩ := hgenerates
      obtain ⟨hfst, hlines, hstates⟩ := ih hdecls
        (g := (g.perform (decl.script g.context)).leaving exit) (by simpa using hg)
        (by simp [hdepth, depth_script hlowers hg hblocked])
      have hemitted : Gen.emitted decl.lower g = (decl.script g.context).lines :=
        Gen.emitted_of_lines hrun (g.lines_perform _)
      simp only [visits, hrun]
      refine ⟨by rw [List.map_cons, hfst], ?_, List.forall_mem_cons.mpr
        ⟨⟨.head _, ⟨rfl, rfl⟩, hdepth, hemitted⟩, ?_⟩⟩
      · rw [List.flatMap_cons, hemitted, hlines, scriptAll, Script.lines_append]
        simp
      · intro visit hvisit
        obtain ⟨hmem, ⟨hsymbols, hoptions⟩, hrest⟩ := hstates visit hvisit
        exact ⟨.tail _ hmem, ⟨by simpa using hsymbols, by simpa using hoptions⟩, hrest⟩

end Decl

/-! ## Functions of accepted programs -/

theorem Program.resolve_of_analyze {program : Program} {options : Options} {resolved : Resolved}
    (h : program.analyze { options } = .done resolved []) :
    program.resolve { options } = .done resolved [] := by
  rw [analyze, Reporting.bind_eq_quiet_iff] at h
  obtain ⟨resolved, hresolve, h⟩ := h
  obtain ⟨_, _, h⟩ := Reporting.bind_eq_quiet_iff.mp h
  cases h
  exact hresolve

namespace Resolved

variable {resolved : Resolved}

/-- A function of the program has this label, and its parameters take this number of words. -/
def Calls (resolved : Resolved) (label : Label) (words : Nat) : Prop :=
  ∃ fn ∈ resolved.program.functions, label = resolved.context.functionLabel fn.id.name ∧
    ∃ info, fn.info resolved.context.symbols = .ok info ∧ info.paramsSize = wordSize * words

def Stores (resolved : Resolved) (label : Label) : Prop :=
  ∃ decl, Decl.var decl ∈ resolved.program.decls ∧ label = globalLabel decl.id.name

theorem Clean.callee (h : resolved.Clean) {call : Ident × List Expr}
    (hcall : call ∈ resolved.program.calls) : ∃ fn ∈ resolved.program.functions, ∃ index,
      fn.Framed resolved.context.symbols index ∧ call.1.name = fn.id.name ∧
        call.2.length = fn.formals.length ∧
        resolved.context.symbols.info? call.1 = some fn.signature := by
  obtain ⟨ty, hty⟩ := h.hasType_call hcall
  cases hty with
  | call hcallee _ _ =>
      obtain ⟨symbol, hsymbol, hfunction⟩ := Option.bind_eq_some_iff.mp hcallee
      obtain ⟨link, hlink, hget⟩ := Option.bind_eq_some_iff.mp hsymbol
      rcases h.symbols link symbol hget with hvariable | hstruct | ⟨fn, hfn, hframed⟩
      · cases hvariable.function.symm.trans hfunction
      · cases hstruct.function.symm.trans hfunction
      · obtain ⟨hname, hlength⟩ := h.call_of_link hfn hcall (hlink.trans hframed.link.symm)
        cases hget.symm.trans hframed.symbol
        cases hfunction
        exact ⟨fn, hfn, link, hframed, hname, hlength, hcallee⟩

theorem Clean.calls (h : resolved.Clean) {call : Ident × List Expr}
    (hcall : call ∈ resolved.program.calls) :
    resolved.Calls (resolved.context.functionLabel call.1.name) call.2.length := by
  obtain ⟨fn, hfn, _, hframed, hname, hlength, _⟩ := h.callee hcall
  exact ⟨fn, hfn, by rw [hname], fn.signature, hframed.info_eq, by rw [hlength]; rfl⟩

/-- The lines of an assembly are those that the generator emits on its way through the program. -/
theorem Emits.visits {assembly : Assembly} (h : resolved.Emits assembly) {visits}
    (hvisits : visits = Decl.visits { context := resolved.context } resolved.program.decls) :
    visits.map Prod.fst = resolved.program.decls ∧
      assembly.lines = visits.flatMap (fun visit => Gen.emitted visit.1.lower visit.2) ∧
      ∀ visit ∈ visits, visit.1 ∈ resolved.program.decls ∧
        visit.2.context.Like resolved.context ∧ visit.2.depth = 0 ∧
        Gen.emitted visit.1.lower visit.2 = (visit.1.script visit.2.context).lines := by
  have hblocked : ∀ decl ∈ resolved.program.decls, decl.blocked = [] := by
    rw [← List.flatMap_eq_nil_iff, ← Program.blocked_eq, h.blocked]
  rw [hvisits, h.lines, eq_comm (a := Script.lines _)]
  exact Decl.visits_spec
    (fun decl hdecl => ⟨h.clean.lowers h.fits decl hdecl, hblocked decl hdecl⟩) rfl rfl

theorem Emits.admissible {program : Program} {options : Options} {assembly : Assembly}
    (hanalyze : program.analyze { options } = .done resolved []) (h : resolved.Emits assembly)
    {fn : FnDecl} (hfn : fn ∈ resolved.program.functions) {stmt : Stmt}
    (hstmt : stmt ∈ fn.body.stmts) :
    stmt.Admissible resolved.Calls resolved.Stores resolved.context fn.returnType.toTy := by
  have hall : stmt.allExprs ⊆ fn.body.allExprs := by
    rw [Block.allExprs_eq]
    exact fun e he => List.mem_flatMap.mpr ⟨stmt, hstmt, he⟩
  refine ⟨fun node hnode => h.clean.typed fn hfn node ?_, h.clean.grammar fn hfn stmt hstmt,
    ?_, ?_⟩
  · rw [Block.nodes_eq]
    exact List.mem_flatMap.mpr ⟨stmt, hstmt, hnode⟩
  · have hblocked := List.flatMap_eq_nil_iff.mp h.blocked fn hfn
    rw [Block.blocked_eq] at hblocked
    exact (Stmt.blocked_eq_nil_iff (h.clean.grammar fn hfn stmt hstmt)).mp
      (List.flatMap_eq_nil_iff.mp hblocked stmt hstmt)
  · intro e he node hnode
    have huse : ∀ id, node.use? = some id → id ∈ fn.body.uses := fun id hid =>
      List.mem_flatMap.mpr ⟨e, hall he, List.mem_filterMap.mpr ⟨node, hnode, hid⟩⟩
    cases node with
    | name id =>
        intro ty hty hstorable label hlocation
        exact Program.variable_of_use (Program.resolve_of_analyze hanalyze) hfn (huse id rfl) hty
          hstorable (Ident.location_eq hlocation)
    | call callee args =>
        have hcall : (callee, args) ∈ resolved.program.calls := List.mem_flatMap.mpr ⟨fn, hfn,
          List.mem_flatMap.mpr ⟨e, hall he, List.mem_filterMap.mpr ⟨_, hnode, rfl⟩⟩⟩
        exact h.clean.calls hcall
    | int _ _ | str _ _ | bool _ _ | field _ _ | assign _ _ | unary _ _ | binary _ _ _ => trivial

/-- The code of a function in an accepted program is structured. -/
theorem Emits.structured {program : Program} {options : Options} {assembly : Assembly}
    (hanalyze : program.analyze { options } = .done resolved []) (h : resolved.Emits assembly)
    {fn : FnDecl} (hfn : fn ∈ resolved.program.functions) (exit : Label) {c : Context}
    (hc : c.Like resolved.context) (d : Nat) :
    Script.Structured resolved.Calls resolved.Stores exit [] c d (fn.body.script c exit) d [] :=
  Block.structured h.clean.complete.typed fn.returnType.isReturnable_toTy
    (fun _ hstmt => h.admissible hanalyze hfn hstmt) [] hc d

end Resolved

end StackMips
