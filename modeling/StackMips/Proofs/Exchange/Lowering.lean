import StackMips.Proofs.Exchange.Symbols
import StackMips.Proofs.Lowering.PairedTrees
import StackMips.Proofs.Lowering.Ranges

/-!
# Code after an exchange

Labels are made of the names of functions and of global variables.  All other names lead to symbols
and to nothing else.  The names of structs are top-level names as well, but a name that generation
comes to stands for a value, and the name of a struct does not.
-/

namespace StackMips

open Mips

/-! ## The names that generation comes to -/

section

variable {symbols : Arena} (hsymbols : symbols.Typed)
include hsymbols

/-- Inside an expression with a value, generation comes to names with values only. -/
theorem Expr.HasValue.of_visited {e : Expr} (h : e.HasValue symbols) {id : Ident}
    (hid : .name id ∈ e.visited) : (name id).HasValue symbols := by
  induction e using Expr.induction with
  | int _ _ | str _ _ | bool _ _ | field _ _ _ => simp [visited] at hid
  | name other =>
      simp only [visited, List.mem_singleton] at hid
      exact hid ▸ h
  | assign left right ihleft ihright =>
      simp only [visited, List.mem_cons, List.mem_append, reduceCtorEq, false_or] at hid
      exact hid.elim (ihleft h.assign.1) (ihright h.assign.2)
  | binary op left right ihleft ihright =>
      simp only [visited, List.mem_cons, List.mem_append, reduceCtorEq, false_or] at hid
      exact hid.elim (ihleft h.binary.1) (ihright h.binary.2)
  | unary op operand ih =>
      simp only [visited, List.mem_cons, reduceCtorEq, false_or] at hid
      exact ih h.unary hid
  | call callee args ih =>
      simp only [visited, visitedAll_eq_flatMap, List.mem_cons, List.mem_flatMap, reduceCtorEq,
        false_or] at hid
      obtain ⟨arg, harg, hid⟩ := hid
      obtain ⟨ty, hty, -⟩ := h
      exact ih arg harg (hasValue_args hsymbols hty arg harg) hid

theorem Stmt.IsTyped.of_visited {returnType : Ty} (hreturn : returnType.isReturnable) {stmt : Stmt}
    (h : stmt.IsTyped symbols returnType) (hformed : stmt.isFormed)
    (hgrammar : ∀ e ∈ stmt.exprs, e.InGrammar) {e : Expr} (he : e ∈ stmt.exprs) {id : Ident}
    (hid : .name id ∈ e.visited) : (Expr.name id).HasValue symbols := by
  have hgrammar := hgrammar e he
  cases h with
  | ret _ => cases he
  | assign h =>
      obtain rfl := List.mem_singleton.mp he
      exact (hasValue_of_assign hsymbols hgrammar.assign.1 h).of_visited hsymbols hid
  | increment h | decrement h | ifThen h | ifElse h | whileLoop h | repeatLoop h =>
      obtain rfl := List.mem_singleton.mp he
      exact Expr.HasValue.of_visited hsymbols ⟨_, h, rfl⟩ hid
  | read h hty =>
      obtain rfl := List.mem_singleton.mp he
      exact Expr.HasValue.of_visited hsymbols
        ⟨_, h, isValue_of_isReadable hsymbols hformed h hty⟩ hid
  | write h hty =>
      obtain rfl := List.mem_singleton.mp he
      exact (hasValue_of_isWritable hsymbols h hty).of_visited hsymbols hid
  | retValue h hty =>
      obtain rfl := List.mem_singleton.mp he
      exact Expr.HasValue.of_visited hsymbols
        ⟨_, h, Ty.isValue_of_isReturnable hreturn hty⟩ hid
  | call h =>
      -- The call itself may have no value, but its arguments have.
      obtain rfl := List.mem_singleton.mp he
      simp only [Expr.visited, Expr.visitedAll_eq_flatMap, List.mem_cons, List.mem_flatMap,
        reduceCtorEq, false_or] at hid
      obtain ⟨arg, harg, hid⟩ := hid
      exact (Expr.hasValue_args hsymbols h arg harg).of_visited hsymbols hid

end

theorem Expr.visited_subset (e : Expr) : e.visited ⊆ e.nodes := by
  induction e using Expr.induction with
  | int _ _ | str _ _ | bool _ _ | name _ => exact List.Subset.refl _
  | field base id _ => exact List.cons_subset_cons _ (List.nil_subset _)
  | assign left right ihleft ihright | binary op left right ihleft ihright =>
      rw [visited, nodes]
      exact List.cons_subset_cons _ (List.append_subset.mpr
        ⟨List.subset_append_of_subset_left _ ihleft, List.subset_append_of_subset_right _ ihright⟩)
  | unary op operand ih => exact List.cons_subset_cons _ ih
  | call callee args ih =>
      rw [visited, nodes, visitedAll_eq_flatMap, nodesAll_eq_flatMap]
      apply List.cons_subset_cons
      intro node hnode
      obtain ⟨arg, harg, hnode⟩ := List.mem_flatMap.mp hnode
      exact List.mem_flatMap.mpr ⟨arg, harg, ih arg harg hnode⟩

section

variable {program : Program} {options : Options} {resolved : Resolved} {fn : FnDecl} {e : Expr}
  {id : Ident}

theorem Resolved.Clean.storable_of_visited (hclean : resolved.Clean)
    (hfn : fn ∈ resolved.program.functions) (he : e ∈ fn.body.allExprs)
    (hid : .name id ∈ e.visited) :
    ∃ ty, resolved.context.symbols.ty? id = some ty ∧ ty.isStorable := by
  obtain ⟨node, hnode, he⟩ := List.mem_flatMap.mp he
  have htyped := hclean.typed fn hfn node hnode
  have hgrammar : node.isFormed ∧ ∀ e ∈ node.exprs, e.InGrammar := by
    rw [Block.nodes_eq] at hnode
    obtain ⟨stmt, hstmt, hnode⟩ := List.mem_flatMap.mp hnode
    exact hclean.grammar fn hfn stmt hstmt node hnode
  obtain ⟨ty, hty, hvalue⟩ := htyped.of_visited hclean.complete.typed
    fn.returnType.isReturnable_toTy hgrammar.1 hgrammar.2 he hid
  cases hty with
  | name hty =>
      have hstring := (hclean.complete.of_ty? hty).2.2
      exact ⟨ty, hty, by simpa [Ty.isValue, hstring] using hvalue⟩

/-- A name that generation comes to and that has a label is the name of a global variable. -/
theorem Program.variable_of_visited (hanalyze : program.analyze { options } = .done resolved [])
    (hclean : resolved.Clean) (hfn : fn ∈ resolved.program.functions)
    (he : e ∈ fn.body.allExprs) (hid : .name id ∈ e.visited) {label : Label}
    (hlocation : id.location resolved.context.symbols = .ok (.global label)) :
    ∃ decl, Decl.var decl ∈ resolved.program.decls ∧ decl.id.name = id.name := by
  obtain ⟨ty, hty, hstorable⟩ := hclean.storable_of_visited hfn he hid
  have huse : id ∈ fn.body.uses := List.mem_flatMap.mpr ⟨e, he,
    List.mem_filterMap.mpr ⟨.name id, e.visited_subset hid, rfl⟩⟩
  exact (Program.global_of_use (Program.resolve_of_analyze hanalyze) hfn huse hty hstorable
    hlocation).2

theorem Resolved.Clean.function_of_visited (hclean : resolved.Clean)
    (hfn : fn ∈ resolved.program.functions) (he : e ∈ fn.body.allExprs) {args : List Expr}
    (hcall : .call id args ∈ e.visited) :
    ∃ callee ∈ resolved.program.functions, id.name = callee.id.name := by
  have hcalls : (id, args) ∈ resolved.program.calls := List.mem_flatMap.mpr ⟨fn, hfn,
    List.mem_flatMap.mpr ⟨e, he, List.mem_filterMap.mpr ⟨_, e.visited_subset hcall, rfl⟩⟩⟩
  obtain ⟨callee, hcallee, _, _, hname, _⟩ := hclean.callee hcalls
  exact ⟨callee, hcallee, hname⟩

end

/-! ## Both runs of the generator -/

/-- Generation does not look at the names of structs. -/
theorem Ty.sameSort_rename (f : String → String) (ty : Ty) : ty.SameSort (ty.rename f) :=
  ⟨ty.isStruct_rename, ty.isString_rename, ty.isVoid_rename⟩

def Pairing.exchanged (x : Exchange) (left right : Context)
    (hoptions : right.options = left.options) : Pairing where
  left
  right
  exchange := x.ident
  between := Eq
  inside := Eq
  faults _ _ := True
  entryPoint := by rw [hoptions]
  pos_exchange _ := rfl
  faults_refl _ := trivial
  faults_exprDepth _ _ _ := trivial
  faults_noAddress _ := trivial
  op h _ := by rw [h]
  opWith _ h _ := by rw [h, hoptions]
  note _ h := by rw [h, hoptions]
  label _ h := by rw [h]
  stored _ _ h := by rw [h]
  enter h := by rw [h]
  leave h := h
  global _ h := by rw [h, hoptions]

/-- Runs with the same lines have the same result, or both stop at a fault. -/
theorem Pairing.Finished.of_exchanged {x : Exchange} {left right : Context}
    {hoptions : right.options = left.options} {result result' : Except Stop Assembly}
    (h : (Pairing.exchanged x left right hoptions).Finished result result') :
    result' = result ∨
      ∃ fault fault', result = .error (.fault fault) ∧ result' = .error (.fault fault') := by
  cases h with
  | @ok assembly assembly' lines strings maxDepth =>
      have hlines : assembly.lines = assembly'.lines := lines
      obtain ⟨lines', strings', maxDepth'⟩ := assembly'
      simp only at hlines strings maxDepth
      rw [← hlines, strings, maxDepth]
      exact .inl rfl
  | unsupported u => exact .inl rfl
  | fault _ => exact .inr ⟨_, _, rfl, rfl⟩

namespace Exchange

variable {x : Exchange} {left right : Context} (hoptions : right.options = left.options)
  (h : left.symbols.Corresponds x right.symbols)
include h

theorem answers_symbol (id : Ident) : (Pairing.exchanged x left right hoptions).Answers
    (Symbol.Corresponds x) (id.symbol left.symbols) ((x.ident id).symbol right.symbols) := by
  obtain ⟨name, pos, link⟩ := id
  cases link with
  | none => exact .error trivial
  | some link =>
      have hget := h.get? link
      simp only [Ident.symbol, Exchange.ident, Option.map_some, Arena.fetch]
      generalize left.symbols.get? link = found,
        right.symbols.get? (x.link link) = found' at hget
      cases hget with
      | none => exact .error trivial
      | some hsymbol => exact .ok hsymbol

/-- A variable has its place in the frame, whatever its name is, or a label that is made of a name
that stays. -/
theorem answers_location {id : Ident}
    (hfixed : ∀ label, id.location left.symbols = .ok (.global label) → x.name id.name = id.name) :
    (Pairing.exchanged x left right hoptions).Answers Eq (id.location left.symbols)
      ((x.ident id).location right.symbols) := by
  have hsymbol := answers_symbol hoptions h id
  rw [Ident.location] at hfixed ⊢
  rw [Ident.location]
  generalize id.symbol left.symbols = found, (x.ident id).symbol right.symbols = found'
    at hsymbol hfixed
  cases hsymbol with
  | error h => exact .error h
  | @ok symbol symbol' hsymbol =>
      apply Pairing.Answers.ok
      rw [hsymbol.isGlobal, hsymbol.offset]
      by_cases hglobal : symbol.isGlobal
      · have hname := hfixed (globalLabel id.name) (congrArg Except.ok (if_pos hglobal))
        rw [if_pos hglobal, if_pos hglobal, Exchange.ident, hname]
      · rw [if_neg hglobal, if_neg hglobal]

theorem answers_function {α : Type} {R : α → α → Prop} {f : FunctionInfo → α}
    (hf : ∀ info, R (f info) (f (info.rename x.name))) (id : Ident) (fault fault' : Fault) :
    (Pairing.exchanged x left right hoptions).Answers R
      (do
        let symbol ← id.symbol left.symbols
        match symbol.function? with
        | some info => return f info
        | none => .error fault)
      (do
        let symbol ← (x.ident id).symbol right.symbols
        match symbol.function? with
        | some info => return f info
        | none => .error fault') := by
  have hsymbol := answers_symbol hoptions h id
  generalize id.symbol left.symbols = found, (x.ident id).symbol right.symbols = found'
    at hsymbol
  cases hsymbol with
  | error h => exact .error h
  | @ok symbol symbol' hsymbol =>
      have hfunction := hsymbol.function?
      simp only [bind, Except.bind, hfunction]
      cases symbol.function? with
      | none => exact .error trivial
      | some info => exact .ok (hf info)

theorem answers_returnType (callee : Ident) : (Pairing.exchanged x left right hoptions).Answers
    Ty.SameSort (callee.returnType left.symbols) ((x.ident callee).returnType right.symbols) :=
  answers_function hoptions h (fun info => info.returnType.sameSort_rename x.name) callee _ _

theorem answers_info (fn : FnDecl) : (Pairing.exchanged x left right hoptions).Answers
    Pairing.SameFrame (fn.info left.symbols) ((fn.mapIdents x.ident).info right.symbols) :=
  answers_function hoptions h (fun _ => ⟨rfl, rfl⟩) fn.id _ _

end Exchange

namespace Program

variable {program : Program} {options : Options} {resolved : Resolved} {x : Exchange}
  {right : Context} (hoptions : right.options = resolved.context.options)

/-- Generation gets the same answers about the exchanged program if the names that make labels
stay. -/
theorem matchesDecl_exchanged (hanalyze : program.analyze { options } = .done resolved [])
    (h : resolved.context.symbols.Corresponds x right.symbols)
    (hvariables : ∀ decl, Decl.var decl ∈ resolved.program.decls →
      x.name decl.id.name = decl.id.name)
    (hfunctions : ∀ fn ∈ resolved.program.functions, x.name fn.id.name = fn.id.name) :
    ∀ decl ∈ resolved.program.decls,
      (Pairing.exchanged x resolved.context right hoptions).MatchesDecl decl := by
  have hclean := (clean_of_analyze hanalyze).2
  intro decl hdecl
  cases decl with
  | var decl => exact hvariables decl hdecl
  | struct decl => trivial
  | fn fn =>
      have hfn := mem_functions.mpr hdecl
      refine ⟨hfunctions fn hfn, Exchange.answers_info hoptions h fn, ?_⟩
      intro e he node hnode
      have htype := fun id => (Exchange.answers_symbol hoptions h id).mono fun symbol _ hsymbol =>
        hsymbol.ty ▸ symbol.ty.sameSort_rename x.name
      cases node with
      | name id =>
          -- A local may get any name; a name with a label is that of a top-level variable.
          refine ⟨htype id, Exchange.answers_location hoptions h ?_⟩
          intro label hlocation
          obtain ⟨decl, hdecl, hname⟩ :=
            variable_of_visited hanalyze hclean hfn he hnode hlocation
          exact hname ▸ hvariables decl hdecl
      | field base id => exact htype id
      | call callee args =>
          obtain ⟨other, hother, hname⟩ := hclean.function_of_visited hfn he hnode
          have hfixed : x.name callee.name = callee.name := by rw [hname, hfunctions other hother]
          exact ⟨hfixed, Exchange.answers_returnType hoptions h callee⟩
      | int _ _ | str _ _ | bool _ _ | assign _ _ | unary _ _ | binary _ _ _ => trivial

end Program

/-! ## Outcomes -/

/-- Programs that are analyzed with the same reports, and whose generation has the same result or
stops at a fault for both, compile to the same or compilation stops at a fault for both. -/
theorem Program.compile_cases_of_finish {program other : Program} {options : Options}
    {left right : Resolved} {reports : List Diagnostic}
    (hleft : program.analyze { options } = .done left reports)
    (hright : other.analyze { options } = .done right reports)
    (hfinish : reports = [] →
      Generator.finish { context := right.context } right.program =
        Generator.finish { context := left.context } left.program ∨
      ∃ fault fault', Generator.finish { context := left.context } left.program =
          .error (.fault fault) ∧
        Generator.finish { context := right.context } right.program = .error (.fault fault')) :
    (∃ outcome, program.compile options = .ok (left.program, outcome) ∧
      other.compile options = .ok (right.program, outcome)) ∨
    ∃ fault fault', program.compile options = .error fault ∧
      other.compile options = .error fault' := by
  rw [compile, compile, hleft, hright]
  cases reports with
  | cons report reports => exact .inl ⟨_, rfl, rfl⟩
  | nil =>
      simp only
      rcases hfinish rfl with hsame | ⟨fault, fault', hfault, hfault'⟩
      · rw [hsame]
        cases Generator.finish { context := left.context } left.program with
        | ok assembly => exact .inl ⟨_, rfl, rfl⟩
        | error stop =>
            cases stop with
            | unsupported u => exact .inl ⟨_, rfl, rfl⟩
            | fault fault => exact .inr ⟨_, _, rfl, rfl⟩
      · rw [hfault, hfault']
        exact .inr ⟨_, _, rfl, rfl⟩

end StackMips
