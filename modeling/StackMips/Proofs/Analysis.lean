import StackMips.Compile
import StackMips.Proofs.Resolution.Quiet
import StackMips.Proofs.Typing

/-!
# Analysis of whole programs

Analysis of an unlinked program in the grammar is total.  A program that is analyzed without a
report has complete frames, linked names and well-typed bodies: all that code generation relies on.
-/

namespace StackMips

/-! ## Totality -/

namespace Program

theorem pointsInto_linked (program : Program) {context : Context}
    (hcontext : context.symbols.Sound) {fn' : FnDecl}
    (hfn : Decl.fn fn' ∈ (program.linked context).program.decls) :
    ∀ e ∈ fn'.body.allExprs, ∀ id ∈ e.idents,
      id.PointsInto (program.linked context).context.symbols := by
  intro e' he' id hid
  obtain ⟨fn, _, r, hr, rfl, hextends, _⟩ :=
    Decl.fn_visited (Resolver.start_atTop hcontext) hfn
  obtain ⟨e, _, s, ⟨hsound, _⟩, hs, rfl, _⟩ := fn.exprs_visited hr e' he'
  have hpoints := (Expr.pointsInto_linked hsound e id hid).mono hs.keeps
  exact (hpoints.mono (fn.keeps_after r)).mono hextends.keeps

theorem InGrammar.linked {program : Program} (h : program.InGrammar) {context : Context}
    (hcontext : context.symbols.Sound) : (program.linked context).program.InGrammar := by
  intro fn' hfn'
  obtain ⟨fn, hfn, r, _, rfl, _⟩ :=
    Decl.fn_visited (Resolver.start_atTop hcontext) (mem_functions.mp hfn')
  exact (h fn (mem_functions.mpr hfn)).linked _

/-- Analysis reports what resolution reports, and then what checking reports. -/
theorem analyze_of_check {program : Program} {context : Context}
    (hcontext : context.symbols.Sound) (hgrammar : program.InGrammar)
    (hunlinked : program.Unlinked) {reports : List Diagnostic}
    (hcheck : (program.linked context).program.check (program.linked context).context.symbols =
      .done () reports) :
    program.analyze context =
      .done (program.linked context) (program.resolutionReports context ++ reports) := by
  rw [analyze, resolve_eq hcontext hgrammar hunlinked, Reporting.done_bind_eq, hcheck,
    Reporting.done_bind_eq]
  simp

/-- Analysis never stops at a fault. -/
theorem analyze_eq {program : Program} {context : Context} (hcontext : context.symbols.Sound)
    (hgrammar : program.InGrammar) (hunlinked : program.Unlinked) :
    ∃ reports, (program.linked context).program.check (program.linked context).context.symbols =
        .done () reports ∧
      program.analyze context =
        .done (program.linked context) (program.resolutionReports context ++ reports) := by
  obtain ⟨u, reports, hcheck⟩ := Decl.checkAll_isDone fun fn hfn =>
    pointsInto_linked program hcontext hfn
  exact ⟨reports, hcheck, analyze_of_check hcontext hgrammar hunlinked hcheck⟩

end Program

/-! ## Programs without reports -/

/-- What is known of a program that has been resolved without a report. -/
structure Resolved.Linked (resolved : Resolved) : Prop where
  functions : ∀ fn ∈ resolved.program.functions, ∃ index globals,
    fn.Framed resolved.context.symbols index ∧ fn.Scoped resolved.context.symbols index globals
  grammar : resolved.program.InGrammar
  symbols : ∀ (id : Nat) symbol, resolved.context.symbols.get? id = some symbol →
    symbol.IsVariable ∨ symbol.IsStruct ∨
      ∃ fn ∈ resolved.program.functions, fn.Framed resolved.context.symbols id

/-- What is known of a program that has been analyzed without a report. -/
structure Resolved.Clean (resolved : Resolved) : Prop extends resolved.Linked where
  typed : ∀ fn ∈ resolved.program.functions,
    fn.body.WellTyped resolved.context.symbols fn.returnType.toTy

theorem TypeName.isReturnable_toTy (type : TypeName) : type.toTy.isReturnable := by
  cases type <;> rfl

theorem FnDecl.Framed.typed {symbols : Arena} {index : Nat} {fn : FnDecl}
    (h : fn.Framed symbols index) : fn.signature.Typed where
  storable := h.storable
  returnable := fn.returnType.isReturnable_toTy

theorem Arena.exists_framed {symbols : Arena} {id : Nat} {symbol : Symbol} {info : FunctionInfo}
    (h : symbol.IsVariable ∨ symbol.IsStruct ∨ ∃ fn : FnDecl, fn.Framed symbols id)
    (hget : symbols.get? id = some symbol) (hfunction : symbol.function? = some info) :
    ∃ fn : FnDecl, fn.Framed symbols id ∧ fn.signature = info := by
  rcases h with hvariable | hstruct | ⟨fn, hframed⟩
  · simp [hvariable.function] at hfunction
  · simp [hstruct.function] at hfunction
  · obtain rfl := Option.some.inj (hframed.symbol.symm.trans hget)
    exact ⟨fn, hframed, Option.some.inj hfunction⟩

theorem Arena.complete_of_symbols {symbols : Arena}
    (h : ∀ (id : Nat) symbol, symbols.get? id = some symbol →
      symbol.IsVariable ∨ symbol.IsStruct ∨ ∃ fn : FnDecl, fn.Framed symbols id) :
    symbols.Complete where
  ty id symbol hget := by
    rcases h id symbol hget with hvariable | hstruct | ⟨fn, hframed⟩
    · exact ⟨Ty.isError_of_isStorable hvariable.ty, Ty.isVoid_of_isStorable hvariable.ty,
        Ty.isString_of_isStorable hvariable.ty⟩
    · have hdef := hstruct.ty
      cases hty : symbol.ty <;>
        simp_all [Ty.isStructDef, Ty.isError, Ty.isVoid, Ty.isString]
    · obtain rfl := Option.some.inj (hframed.symbol.symm.trans hget)
      exact ⟨rfl, rfl, rfl⟩
  function id symbol info hget hfunction := by
    obtain ⟨fn, hframed, rfl⟩ := exists_framed (h id symbol hget) hget hfunction
    exact hframed.typed
  count id symbol info hget hfunction := by
    obtain ⟨fn, _, rfl⟩ := exists_framed (h id symbol hget) hget hfunction
    simp [FnDecl.signature]

theorem Resolved.Linked.complete {resolved : Resolved} (h : resolved.Linked) :
    resolved.context.symbols.Complete :=
  Arena.complete_of_symbols fun id symbol hget => by
    rcases h.symbols id symbol hget with hvariable | hstruct | ⟨fn, _, hframed⟩
    · exact .inl hvariable
    · exact .inr (.inl hstruct)
    · exact .inr (.inr ⟨fn, hframed⟩)

theorem Resolved.Linked.isSome_link {resolved : Resolved} (h : resolved.Linked) {fn : FnDecl}
    (hfn : fn ∈ resolved.program.functions) :
    ∀ e ∈ fn.body.allExprs, ∀ id ∈ e.idents, id.link.isSome := by
  intro e he id hid
  obtain ⟨_, _, _, hscoped⟩ := h.functions fn hfn
  exact (hscoped.linked e he id hid).1

theorem Resolved.Linked.wellTyped_of_check {resolved : Resolved} (h : resolved.Linked)
    (hcheck : resolved.program.check resolved.context.symbols = .done () []) :
    ∀ fn ∈ resolved.program.functions,
      fn.body.WellTyped resolved.context.symbols fn.returnType.toTy := by
  intro fn hfn
  exact Block.check_sound h.complete
    (Ty.isError_of_isReturnable fn.returnType.isReturnable_toTy) (h.isSome_link hfn)
    (Decl.checkAll_quiet hcheck (Program.mem_functions.mp hfn))

theorem Program.reportsAll_of_resolve {program : Program} {options : Options} {resolved : Resolved}
    (h : program.resolve { options } = .done resolved []) :
    Decl.reportsAll (Resolver.start { options }) program.decls = [] := by
  obtain ⟨hgrammar, hunlinked⟩ := resolve_quiet h
  rw [resolve_eq sound_empty hgrammar hunlinked, Reporting.done.injEq] at h
  exact (List.append_eq_nil_iff.mp h.2).1

/-- A program that is resolved without a report is linked, whatever it looked like before. -/
theorem Program.linked_of_resolve {program : Program} {options : Options} {resolved : Resolved}
    (h : program.resolve { options } = .done resolved []) :
    resolved = program.linked { options } ∧ resolved.Linked := by
  have hdecls := reportsAll_of_resolve h
  obtain ⟨hgrammar, hunlinked⟩ := resolve_quiet h
  rw [resolve_eq sound_empty hgrammar hunlinked, Reporting.done.injEq] at h
  obtain ⟨rfl, _⟩ := h
  refine ⟨rfl, ?_, hgrammar.linked sound_empty, ?_⟩
  · intro fn' hfn'
    obtain ⟨fn, hfn, r, hr, rfl, hextends, hreports⟩ :=
      Decl.fn_visited (Resolver.start_atTop sound_empty) (mem_functions.mp hfn')
    have hbody := hgrammar fn (mem_functions.mpr hfn)
    exact ⟨_, _, (FnDecl.framed_linked (hreports hdecls)).mono hextends,
      (FnDecl.scoped_linked hr hbody (hreports hdecls)).mono hextends⟩
  · intro id symbol hget
    rcases Decl.afterAll_symbols hdecls hget with hold | hvariable | hstruct | ⟨fn, hfn, hframed⟩
    · simp [Resolver.start, Arena.get?] at hold
    · exact .inl hvariable
    · exact .inr (.inl hstruct)
    · exact .inr (.inr ⟨fn, mem_functions.mpr hfn, hframed⟩)

theorem Program.clean_of_analyze {program : Program} {options : Options} {resolved : Resolved}
    (h : program.analyze { options } = .done resolved []) :
    resolved = program.linked { options } ∧ resolved.Clean := by
  rw [analyze, Reporting.bind_eq_quiet_iff] at h
  obtain ⟨resolved, hresolve, h⟩ := h
  obtain ⟨u, hcheck, h⟩ := Reporting.bind_eq_quiet_iff.mp h
  cases h
  obtain ⟨heq, hlinked⟩ := linked_of_resolve hresolve
  exact ⟨heq, hlinked, hlinked.wellTyped_of_check hcheck⟩

/-! ## Calls -/

namespace Resolved.Clean

variable {resolved : Resolved} (h : resolved.Clean)
include h

theorem hasType_call {call : Ident × List Expr} (hcall : call ∈ resolved.program.calls) :
    ∃ ty, (Expr.call call.1 call.2).HasType resolved.context.symbols ty := by
  obtain ⟨fn, hfn, hcall⟩ := List.mem_flatMap.mp hcall
  obtain ⟨e, he, hcall⟩ := List.mem_flatMap.mp hcall
  obtain ⟨ty, hty⟩ := (h.typed fn hfn).exprs e he
  exact hty.calls ((h.grammar fn hfn).allExprs e he) call hcall

/-- A call of a function names it and passes as many words as it has formals. -/
theorem call_of_link {fn : FnDecl} (hfn : fn ∈ resolved.program.functions)
    {call : Ident × List Expr} (hcall : call ∈ resolved.program.calls)
    (hlink : call.1.link = fn.id.link) :
    call.1.name = fn.id.name ∧ call.2.length = fn.formals.length := by
  obtain ⟨index, _, hframed, _⟩ := h.functions fn hfn
  rw [hframed.link] at hlink
  refine ⟨?_, ?_⟩
  · obtain ⟨caller, hcaller, hcall⟩ := List.mem_flatMap.mp hcall
    obtain ⟨e, he, hcall⟩ := List.mem_flatMap.mp hcall
    obtain ⟨_, _, _, hscoped⟩ := h.functions caller hcaller
    obtain ⟨node, hnode, hnodeCall⟩ := List.mem_filterMap.mp hcall
    have hid : call.1 ∈ e.idents := by
      refine Expr.idents_subset hnode ?_
      cases node <;> simp only [Expr.call?, reduceCtorEq, Option.some.injEq] at hnodeCall
      simp [Expr.idents, ← hnodeCall]
    obtain ⟨symbol, hget, hname⟩ := (hscoped.linked e he _ hid).2 _ hlink
    cases hget.symm.trans hframed.symbol
    exact hname.symm
  · obtain ⟨ty, hty⟩ := h.hasType_call hcall
    cases hty with
    | call hcallee hcount _ =>
        rw [hcount]
        have hinfo : resolved.context.symbols.info? call.1 = some fn.signature := by
          simp [Arena.info?, Arena.symbol?, hlink, hframed.symbol, Symbol.function?]
        cases hinfo.symm.trans hcallee
        rfl

end Resolved.Clean

end StackMips
