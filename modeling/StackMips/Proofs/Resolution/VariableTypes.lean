import StackMips.Proofs.Analysis

/-!
# Types of variables

The symbol of an accepted variable has the type that its declaration states.
-/

namespace StackMips

/-- If the variable is accepted, its symbol has the declared type. -/
def VarDecl.IsTyped (symbols : Arena) (decl : VarDecl) : Prop :=
  ∀ link, decl.id.link = some link →
    ∃ symbol, symbols.get? link = some symbol ∧ symbol.ty = decl.type.toTy

theorem VarDecl.IsTyped.mono {a b : Arena} {decl : VarDecl} (h : decl.IsTyped a)
    (hextends : a.Extends b) : decl.IsTyped b := by
  intro link hlink
  obtain ⟨symbol, hget, hty⟩ := h link hlink
  exact ⟨symbol, hextends _ _ hget, hty⟩

structure Resolver.Types (r r' : Resolver) (decls : List VarDecl) : Prop where
  symbols : r.symbols.Extends r'.symbols
  typed : ∀ decl ∈ decls, decl.IsTyped r'.symbols

namespace Resolver

theorem Types.nil (r : Resolver) : r.Types r [] := ⟨.refl _, by simp⟩

theorem Types.append {a b c : Resolver} {before after : List VarDecl}
    (hab : a.Types b before) (hbc : b.Types c after) : a.Types c (before ++ after) where
  symbols := hab.symbols.trans hbc.symbols
  typed := List.forall_mem_append.mpr
    ⟨fun decl hdecl => (hab.typed decl hdecl).mono hbc.symbols, hbc.typed⟩

theorem Types.of_symbols {a a' b b' : Resolver} {decls : List VarDecl} (h : a.Types b decls)
    (ha : a'.symbols = a.symbols) (hb : b'.symbols = b.symbols) : a'.Types b' decls :=
  ⟨by rw [ha, hb]; exact h.symbols, by rw [hb]; exact h.typed⟩

/-- A declaration pushes the symbol of an accepted variable, and nothing else. -/
theorem types_linked {r r' : Resolver} {decl : VarDecl} (offset : Int)
    (hrejected : decl.accepted? r r.table = none → r'.symbols = r.symbols)
    (haccepted : ∀ kind, decl.accepted? r r.table = some kind →
      r'.symbols = r.symbols.push (decl.symbol offset kind)) :
    r.Types r' [decl.linked r r.table] := by
  cases haccept : decl.accepted? r r.table with
  | none =>
      refine ⟨by rw [hrejected haccept]; exact .refl _, ?_⟩
      simp [VarDecl.IsTyped, VarDecl.linked, haccept]
  | some kind =>
      have hsymbols := haccepted kind haccept
      refine ⟨by rw [hsymbols]; exact r.symbols.extends_push _, ?_⟩
      rw [List.forall_mem_singleton]
      intro link hlink
      obtain rfl : r.symbols.size = link := by simpa [VarDecl.linked, haccept] using hlink
      refine ⟨decl.symbol offset kind, ?_, (decl.toTy_linked r r.table).symm⟩
      rw [hsymbols, Arena.get?_push_size]

theorem types_declareGlobal (r : Resolver) (decl : VarDecl) :
    r.Types (r.declareGlobal decl) [decl.linked r r.table] := by
  refine types_linked globalOffset ?_ ?_ <;> intros <;>
    simp_all [declareGlobal, accept, allocate]

theorem types_declareFormal (r : Resolver) (decl : VarDecl) :
    r.Types (r.declareFormal decl) [decl.linked r r.table] := by
  refine types_linked r.frameOffset ?_ ?_ <;> intros <;>
    simp_all [declareFormal, accept, allocate]

theorem types_declareLocal (r : Resolver) (decl : VarDecl) :
    r.Types (r.declareLocal decl) [decl.linked r r.table] := by
  refine types_linked r.frameOffset ?_ ?_ <;> intros <;>
    simp_all [declareLocal, accept, allocate]

theorem types_linkedAll {declare : Resolver → VarDecl → Resolver}
    (hdeclare : ∀ (r : Resolver) decl, r.Types (declare r decl) [decl.linked r r.table])
    (decls : List VarDecl) (r : Resolver) :
    r.Types (decls.foldl declare r) (VarDecl.linkedAll declare r decls) := by
  induction decls generalizing r with
  | nil => exact .nil r
  | cons decl decls ih => exact (hdeclare r decl).append (ih _)

theorem types_linkedStmts_of {stmts : List Stmt}
    (h : ∀ stmt ∈ stmts, ∀ r : Resolver, r.Types (stmt.after r) (stmt.linked r).locals)
    (r : Resolver) :
    r.Types (Stmt.afterAll r stmts) ((Stmt.linkedAll r stmts).flatMap Stmt.locals) := by
  induction stmts generalizing r with
  | nil => exact .nil r
  | cons stmt stmts ih =>
      rw [Stmt.linkedAll, Stmt.afterAll, List.flatMap_cons]
      exact (h stmt (by simp) r).append (ih (fun other hother => h other (by simp [hother])) _)

theorem types_block_of {block : Block}
    (h : ∀ stmt ∈ block.stmts, ∀ r : Resolver, r.Types (stmt.after r) (stmt.linked r).locals)
    (r : Resolver) : r.Types (block.after r) (block.linked r).locals := by
  obtain ⟨decls, stmts⟩ := block
  rw [Block.locals_eq]
  exact (types_linkedAll types_declareLocal decls r).append (types_linkedStmts_of h _)

theorem types_stmt (stmt : Stmt) (r : Resolver) :
    r.Types (stmt.after r) (stmt.linked r).locals := by
  induction stmt using Stmt.induction generalizing r with
  | ifThen cond body ih | whileLoop cond body ih | repeatLoop cond body ih =>
      exact (types_block_of ih r.enter).of_symbols rfl rfl
  | ifElse cond thenBody elseBody ihthen ihelse =>
      have hthen : r.Types ((thenBody.after r.enter).backTo r) _ :=
        (types_block_of ihthen r.enter).of_symbols rfl rfl
      exact hthen.append ((types_block_of ihelse _).of_symbols rfl rfl)
  | assign _ _ | increment _ | decrement _ | read _ | write _ | call _ _ | ret _ _ =>
      exact .nil r

end Resolver

theorem FnDecl.isTyped_linked {r : Resolver} {fn : FnDecl} (h : fn.reports r = []) :
    ∀ decl ∈ (fn.linked r).formals ++ (fn.linked r).body.locals,
      decl.IsTyped (fn.after r).symbols := by
  have hformals : (fn.opened r).Types (fn.inside r) (fn.linked r).formals :=
    (Resolver.types_linkedAll Resolver.types_declareFormal fn.formals _).of_symbols rfl rfl
  have hbody : (fn.inside r).Types (fn.body.after (fn.inside r)) (fn.linked r).body.locals :=
    Resolver.types_block_of (fun stmt _ => Resolver.types_stmt stmt) _
  have hframed := framed_linked h
  intro decl hdecl link hlink
  -- The symbol of the function itself, which is completed in the end, is none of them.
  have hne : r.symbols.size ≠ link := by
    have hmem : some link ∈ ((fn.linked r).formals ++ (fn.linked r).body.locals).map (·.id.link) :=
      List.mem_map.mpr ⟨decl, hdecl, hlink⟩
    rw [List.map_append, hframed.formalLinks, hframed.localLinks, List.mem_append] at hmem
    simp only [List.mem_map, List.mem_range'_1, Option.some.injEq, exists_eq_right] at hmem
    omega
  obtain ⟨symbol, hget, hty⟩ := (hformals.append hbody).typed decl hdecl link hlink
  exact ⟨symbol, by rw [get?_after h, if_neg hne, hget], hty⟩

theorem Decl.isTyped_linkedAll {r : Resolver} {decls : List Decl} {decl : VarDecl}
    (h : Decl.var decl ∈ linkedAll r decls) : decl.IsTyped (afterAll r decls).symbols := by
  induction decls generalizing r with
  | nil => simp [linkedAll] at h
  | cons other decls ih =>
      rcases List.mem_cons.mp h with hother | hdecls
      · cases other with
        | fn _ | struct _ => cases hother
        | var other =>
            cases hother
            exact ((r.types_declareGlobal other).typed _ (.head _)).mono
              (grows_afterAll _ decls).symbols
      · exact ih hdecls

/-- In a program that is resolved without a report, the symbol of every variable has the type of its
declaration. -/
theorem Program.isTyped_of_resolve {program : Program} {options : Options} {resolved : Resolved}
    (h : program.resolve { options } = .done resolved []) :
    (∀ decl, Decl.var decl ∈ resolved.program.decls → decl.IsTyped resolved.context.symbols) ∧
      ∀ fn ∈ resolved.program.functions, ∀ decl ∈ fn.formals ++ fn.body.locals,
        decl.IsTyped resolved.context.symbols := by
  have hdecls := reportsAll_of_resolve h
  obtain ⟨rfl, -⟩ := linked_of_resolve h
  refine ⟨fun decl hdecl => Decl.isTyped_linkedAll hdecl, fun fn' hfn' => ?_⟩
  obtain ⟨fn, _, r, _, rfl, hextends, hreports⟩ :=
    Decl.fn_visited (Resolver.start_atTop sound_empty) (mem_functions.mp hfn')
  exact fun decl hdecl => (FnDecl.isTyped_linked (hreports hdecls) decl hdecl).mono hextends

end StackMips
