import StackMips.Proofs.Lowering.Pairing

/-!
# Trees that are lowered alike

Two trees that differ in their identifiers only are lowered alike if the generator gets the same
answers about the identifiers that it comes to.  It never comes to what stands before a dot.
-/

namespace StackMips

open Mips

/-! ## What generation asks about a tree -/

mutual

/-- The expressions inside an expression that code generation comes to. -/
def Expr.visited : Expr → List Expr
  | .int value pos => [.int value pos]
  | .str text pos => [.str text pos]
  | .bool value pos => [.bool value pos]
  | .name id => [.name id]
  | .field base id => [.field base id]
  | .assign target value => .assign target value :: (target.visited ++ value.visited)
  | .call callee args => .call callee args :: Expr.visitedAll args
  | .unary op operand => .unary op operand :: operand.visited
  | .binary op left right => .binary op left right :: (left.visited ++ right.visited)

def Expr.visitedAll : List Expr → List Expr
  | [] => []
  | e :: es => e.visited ++ Expr.visitedAll es

end

@[simp] theorem Expr.visitedAll_eq_flatMap (es : List Expr) :
    Expr.visitedAll es = es.flatMap Expr.visited := by
  induction es with
  | nil => rfl
  | cons e es ih => rw [Expr.visitedAll, ih, List.flatMap_cons]

theorem Expr.self_mem_visited (e : Expr) : e ∈ e.visited := by
  cases e <;> simp [visited]

theorem Expr.visited_subset_call {callee : Ident} {args : List Expr} {arg : Expr}
    (harg : arg ∈ args) : arg.visited ⊆ (call callee args).visited := by
  intro node hnode
  rw [visited, visitedAll_eq_flatMap]
  exact List.mem_cons_of_mem _ (List.mem_flatMap.mpr ⟨arg, harg, hnode⟩)

/-- Types that code generation does not tell apart. -/
structure Ty.SameSort (ty ty' : Ty) : Prop where
  isStruct : ty'.isStruct = ty.isStruct
  isString : ty'.isString = ty.isString
  isVoid : ty'.isVoid = ty.isVoid

theorem Ty.SameSort.refl (ty : Ty) : ty.SameSort ty := ⟨rfl, rfl, rfl⟩

namespace Pairing

variable {p : Pairing}

def MatchesType (p : Pairing) (id : Ident) : Prop :=
  p.Answers (fun symbol symbol' => symbol.ty.SameSort symbol'.ty) (id.symbol p.left.symbols)
    ((p.exchange id).symbol p.right.symbols)

/-- Both runs get the same answers about the identifier of a node. -/
def Matches (p : Pairing) : Expr → Prop
  | .name id => p.MatchesType id ∧
    p.Answers Eq (id.location p.left.symbols) ((p.exchange id).location p.right.symbols)
  | .field _ id => p.MatchesType id
  | .call callee _ => (p.exchange callee).name = callee.name ∧
    p.Answers Ty.SameSort (callee.returnType p.left.symbols)
      ((p.exchange callee).returnType p.right.symbols)
  | _ => True

theorem Answers.map {α β : Type} {R : α → α → Prop} {S : β → β → Prop} {x x' : Except Fault α}
    {f : α → β} (h : p.Answers R x x') (hf : ∀ a a', R a a' → S (f a) (f a')) :
    p.Answers S (do return f (← x)) (do return f (← x')) := by
  cases h with
  | ok h => exact .ok (hf _ _ h)
  | error h => exact .error h

theorem answers_typeOf {e : Expr} (h : ∀ node ∈ e.visited, p.Matches node) :
    p.Answers Ty.SameSort (e.typeOf p.left.symbols)
      ((e.mapIdents p.exchange).typeOf p.right.symbols) := by
  induction e using Expr.induction with
  | int _ _ | str _ _ | bool _ _ => exact .ok (.refl _)
  | name id => exact (h _ (Expr.self_mem_visited _)).1.map fun _ _ hty => hty
  | field base id _ => exact (h _ (Expr.self_mem_visited _)).map fun _ _ hty => hty
  | assign target value ih _ =>
      rw [Expr.mapIdents, Expr.typeOf, Expr.typeOf]
      exact ih fun node hnode => h node (by simp [Expr.visited, hnode])
  | call callee args _ => exact (h _ (Expr.self_mem_visited _)).2
  | unary op operand _ => cases op <;> exact .ok (.refl _)
  | binary op left right _ _ =>
      rw [Expr.mapIdents, Expr.typeOf, Expr.typeOf]
      cases op.family <;> exact .ok (.refl _)

/-! ## Expressions -/

variable {m m' k k' : Gen Unit}

theorem paired_pushing {e e' : Expr} (hm : p.Paired m m')
    (he : ∀ depth expected, p.faults (.exprDepth e depth expected) (.exprDepth e' depth expected)) :
    p.Paired (Gen.pushing e m) (Gen.pushing e' m') := by
  apply InStep.get
  intro g g' hg
  rw [hg.depth]
  apply InStep.bind hm
  intro _
  apply InStep.get
  intro g g' hg
  rw [hg.depth]
  apply InStep.ite Iff.rfl
  · exact .fault (he _ _)
  · exact .pure _

theorem paired_unary (op : UnaryOp) (hm : p.Paired m m') :
    p.Paired (Gen.unary op m) (Gen.unary op m') := by
  apply InStep.bind (paired_comment _)
  intro _
  apply InStep.bind hm
  intro _
  apply InStep.bind (paired_pop .t0)
  intro _
  cases op with
  | neg => exact .bind (paired_op rfl) fun _ => paired_push .t0
  | not => exact .bind (paired_op rfl) fun _ => paired_push .t0

theorem paired_strict (op : AluOp) (text : String) (hm : p.Paired m m') (hk : p.Paired k k') :
    p.Paired (Gen.strict op text m k) (Gen.strict op text m' k') := by
  apply InStep.bind (paired_comment text)
  intro _
  apply InStep.bind hm
  intro _
  apply InStep.bind hk
  intro _
  apply InStep.bind (paired_pop .t1)
  intro _
  apply InStep.bind (paired_pop .t0)
  intro _
  exact .bind (paired_op rfl) fun _ => paired_push .t0

theorem paired_skipping (decisive : Int) (text : String) (hm : p.Paired m m')
    (hk : p.Paired k k') :
    p.Paired (Gen.skipping decisive text m k) (Gen.skipping decisive text m' k') := by
  apply InStep.bind inStep_freshLabel
  intro done
  apply InStep.bind (paired_comment text)
  intro _
  apply InStep.bind hm
  intro _
  apply InStep.bind (paired_pop .t0)
  intro _
  apply InStep.bind (paired_op rfl)
  intro _
  apply InStep.bind hk
  intro _
  apply InStep.bind (paired_pop .t0)
  intro _
  exact .bind (paired_defineLabel done) fun _ => paired_push .t0

theorem paired_binary (op : BinaryOp) (hm : p.Paired m m') (hk : p.Paired k k') :
    p.Paired (Gen.binary op m k) (Gen.binary op m' k') := by
  rw [Gen.binary, Gen.binary]
  cases op.code with
  | strict alu text => exact paired_strict alu text hm hk
  | skipping decisive text => exact paired_skipping decisive text hm hk

theorem paired_address {target : Expr} (h : p.Matches target) :
    p.Paired (Gen.address target) (Gen.address (target.mapIdents p.exchange)) := by
  cases target with
  | name id => exact paired_loadAddress h.2
  | field base id =>
      rw [Expr.mapIdents, Gen.address, Gen.address, p.pos_exchange]
      exact .unsupported _ _
  | int _ _ | str _ _ | bool _ _ | assign _ _ | call _ _ | unary _ _ | binary _ _ _ =>
      exact .fault (p.faults_noAddress _)

theorem paired_assign {target : Expr} (h : ∀ node ∈ target.visited, p.Matches node)
    (hm : p.Paired m m') :
    p.Paired (Gen.assign target m) (Gen.assign (target.mapIdents p.exchange) m') := by
  apply InStep.get
  intro g g' hg
  rw [hg.left.symbols, hg.right.symbols]
  apply InStep.lift (answers_typeOf h)
  intro ty ty' hty
  rw [Expr.pos_mapIdents p.pos_exchange]
  apply InStep.when (by rw [hty.isStruct]) (.unsupported _ _)
  apply InStep.bind (paired_comment _)
  intro _
  apply InStep.bind hm
  intro _
  apply InStep.bind (paired_address (h _ target.self_mem_visited))
  intro _
  apply InStep.bind (paired_pop .t0)
  intro _
  apply InStep.bind (paired_pop .t1)
  intro _
  exact .bind (paired_op rfl) fun _ => paired_push .t1

section Call

variable {callee : Ident} {args : List Expr} (h : p.Matches (.call callee args))
include h

theorem paired_whenReturns (hm : p.Paired m m') :
    p.Paired (do if ← callee.returnsValue (← get).context.symbols then m)
      (do if ← (p.exchange callee).returnsValue (← get).context.symbols then m') := by
  have hreturns := h.2.map (f := fun ty => !ty.isVoid) (S := Eq) fun _ _ hty => by rw [hty.isVoid]
  apply InStep.get
  intro g g' hg
  rw [hg.left.symbols, hg.right.symbols]
  apply InStep.lift hreturns
  rintro returns _ rfl
  exact InStep.ite Iff.rfl hm (.pure _)

theorem paired_call (count : Nat) (hm : p.Paired m m') :
    p.Paired (Gen.call callee count m) (Gen.call (p.exchange callee) count m') := by
  rw [Gen.call, Gen.call, h.1]
  apply InStep.bind (paired_comment _)
  intro _
  apply InStep.bind hm
  intro _
  apply InStep.bind (inStep_functionLabel callee.name)
  intro label
  apply InStep.bind (paired_op rfl)
  intro _
  apply InStep.bind (paired_release count)
  intro _
  exact paired_whenReturns h (paired_push .v0)

end Call

theorem paired_lowerAll {es : List Expr}
    (h : ∀ e ∈ es, p.Paired e.lower (e.mapIdents p.exchange).lower) :
    p.Paired (Expr.lowerAll es) (Expr.lowerAll (es.map (Expr.mapIdents p.exchange))) := by
  induction es with
  | nil => exact .pure _
  | cons e es ih =>
      apply InStep.bind (h e (by simp))
      intro _
      exact ih fun other hother => h other (by simp [hother])

/-- Expressions that get the same answers are lowered alike. -/
theorem paired_lower {e : Expr} (h : ∀ node ∈ e.visited, p.Matches node) :
    p.Paired e.lower (e.mapIdents p.exchange).lower := by
  induction e using Expr.induction with
  | int value pos =>
      rw [Expr.mapIdents, Expr.lower]
      exact paired_pushing (paired_constant _) fun _ _ => p.faults_refl _
  | bool value pos =>
      rw [Expr.mapIdents, Expr.lower]
      exact paired_pushing (paired_constant _) fun _ _ => p.faults_refl _
  | str text pos =>
      rw [Expr.mapIdents, Expr.lower]
      exact paired_pushing (paired_string text) fun _ _ => p.faults_refl _
  | name id =>
      rw [Expr.mapIdents, Expr.lower, Expr.lower]
      exact paired_pushing (paired_load (h _ (Expr.self_mem_visited _)).2)
        (p.faults_exprDepth (.name id))
  | field base id _ =>
      rw [Expr.mapIdents, Expr.lower, Expr.lower, p.pos_exchange]
      exact paired_pushing (.unsupported _ _) (p.faults_exprDepth (.field base id))
  | assign target value _ ih =>
      have htarget : ∀ node ∈ target.visited, p.Matches node :=
        fun node hnode => h node (by simp [Expr.visited, hnode])
      have hvalue := ih fun node hnode => h node (by simp [Expr.visited, hnode])
      rw [Expr.mapIdents, Expr.lower, Expr.lower]
      exact paired_pushing (paired_assign htarget hvalue)
        (p.faults_exprDepth (.assign target value))
  | call callee args ih =>
      have hargs := paired_lowerAll fun arg harg =>
        ih arg harg fun node hnode => h node (Expr.visited_subset_call harg hnode)
      have hdepth := p.faults_exprDepth (.call callee args)
      rw [Expr.mapIdents, Expr.mapIdentsAll_eq_map] at hdepth ⊢
      rw [Expr.lower, Expr.lower, List.length_map]
      exact paired_pushing (paired_call (h _ (Expr.self_mem_visited _)) _ hargs) hdepth
  | unary op operand ih =>
      have hoperand := ih fun node hnode => h node (by simp [Expr.visited, hnode])
      rw [Expr.mapIdents, Expr.lower, Expr.lower]
      exact paired_pushing (paired_unary op hoperand) (p.faults_exprDepth (.unary op operand))
  | binary op left right ihleft ihright =>
      have hleft := ihleft fun node hnode => h node (by simp [Expr.visited, hnode])
      have hright := ihright fun node hnode => h node (by simp [Expr.visited, hnode])
      rw [Expr.mapIdents, Expr.lower, Expr.lower]
      exact paired_pushing (paired_binary op hleft hright)
        (p.faults_exprDepth (.binary op left right))

/-! ## Statements -/

theorem paired_balanced (hm : p.Paired m m') : p.Paired (Gen.balanced m) (Gen.balanced m') := by
  apply InStep.get
  intro g g' hg
  rw [hg.depth]
  apply InStep.bind hm
  intro _
  apply InStep.get
  intro g g' hg
  rw [hg.depth]
  apply InStep.ite Iff.rfl
  · exact .fault (p.faults_refl _)
  · exact .pure _

theorem paired_branchIfFalse (target : Label) (hm : p.Paired m m') :
    p.Paired (Gen.branchIfFalse m target) (Gen.branchIfFalse m' target) := by
  apply InStep.bind hm
  intro _
  exact .bind (paired_pop .t0) fun _ => paired_op rfl

theorem paired_ifThen (hm : p.Paired m m') (hk : p.Paired k k') :
    p.Paired (Gen.ifThen m k) (Gen.ifThen m' k') := by
  apply InStep.bind (paired_comment _)
  intro _
  apply InStep.bind inStep_freshLabel
  intro done
  apply InStep.bind (paired_branchIfFalse done hm)
  intro _
  exact .bind hk fun _ => paired_defineLabel done

theorem paired_ifElse {n n' : Gen Unit} (hm : p.Paired m m') (hk : p.Paired k k')
    (hn : p.Paired n n') : p.Paired (Gen.ifElse m k n) (Gen.ifElse m' k' n') := by
  apply InStep.bind (paired_comment _)
  intro _
  apply InStep.bind inStep_freshLabel
  intro otherwise
  apply InStep.bind inStep_freshLabel
  intro done
  apply InStep.bind (paired_branchIfFalse otherwise hm)
  intro _
  apply InStep.bind hk
  intro _
  apply InStep.bind (paired_op rfl)
  intro _
  apply InStep.bind (paired_defineLabel otherwise)
  intro _
  exact .bind hn fun _ => paired_defineLabel done

theorem paired_whileLoop (hm : p.Paired m m') (hk : p.Paired k k') :
    p.Paired (Gen.whileLoop m k) (Gen.whileLoop m' k') := by
  apply InStep.bind (paired_comment _)
  intro _
  apply InStep.bind inStep_freshLabel
  intro start
  apply InStep.bind inStep_freshLabel
  intro done
  apply InStep.bind (paired_defineLabel start)
  intro _
  apply InStep.bind (paired_branchIfFalse done hm)
  intro _
  apply InStep.bind hk
  intro _
  exact .bind (paired_op rfl) fun _ => paired_defineLabel done

theorem paired_repeatLoop (hm : p.Paired m m') (hk : p.Paired k k') :
    p.Paired (Gen.repeatLoop m k) (Gen.repeatLoop m' k') := by
  apply InStep.bind (paired_comment _)
  intro _
  apply InStep.bind inStep_freshLabel
  intro start
  apply InStep.bind inStep_freshLabel
  intro done
  apply InStep.bind hm
  intro _
  apply InStep.bind (paired_defineLabel start)
  intro _
  apply InStep.bind (paired_op rfl)
  intro _
  apply InStep.bind (paired_op rfl)
  intro _
  apply InStep.bind (paired_op rfl)
  intro _
  apply InStep.bind (paired_op rfl)
  intro _
  apply InStep.bind hk
  intro _
  apply InStep.bind (paired_op rfl)
  intro _
  exact .bind (paired_defineLabel done) fun _ => paired_pop .t0

section Single

variable {e : Expr} (h : ∀ node ∈ e.visited, p.Matches node)
include h

theorem paired_step (stepOp : AluOp) (text : String) :
    p.Paired (Gen.step stepOp text e) (Gen.step stepOp text (e.mapIdents p.exchange)) := by
  apply InStep.bind (paired_comment text)
  intro _
  apply InStep.bind (paired_address (h e e.self_mem_visited))
  intro _
  apply InStep.bind (paired_pop .t1)
  intro _
  apply InStep.bind (paired_lower h)
  intro _
  apply InStep.bind (paired_pop .t0)
  intro _
  exact .bind (paired_op rfl) fun _ => paired_op rfl

theorem paired_read : p.Paired (Gen.read e) (Gen.read (e.mapIdents p.exchange)) := by
  apply InStep.bind (paired_comment _)
  intro _
  apply InStep.bind (paired_op rfl)
  intro _
  apply InStep.bind (paired_op rfl)
  intro _
  apply InStep.bind (paired_address (h e e.self_mem_visited))
  intro _
  exact .bind (paired_pop .t0) fun _ => paired_op rfl

theorem paired_write : p.Paired (Gen.write e) (Gen.write (e.mapIdents p.exchange)) := by
  apply InStep.get
  intro g g' hg
  rw [hg.left.symbols, hg.right.symbols]
  apply InStep.lift (answers_typeOf h)
  intro ty ty' hty
  rw [hty.isString]
  apply InStep.bind (paired_comment _)
  intro _
  apply InStep.bind (paired_lower h)
  intro _
  apply InStep.bind (paired_pop .a0)
  intro _
  exact .bind (paired_op rfl) fun _ => paired_op rfl

end Single

theorem paired_callStmt {callee : Ident} {args : List Expr}
    (h : ∀ node ∈ (Expr.call callee args).visited, p.Matches node) :
    p.Paired (Gen.callStmt callee args)
      (Gen.callStmt (p.exchange callee) (args.map (Expr.mapIdents p.exchange))) := by
  have hcall := h _ (Expr.self_mem_visited _)
  have hargs : p.Paired (Expr.lowerAll args)
      (Expr.lowerAll (args.map (Expr.mapIdents p.exchange))) := by
    apply paired_lowerAll
    intro arg harg
    exact paired_lower fun node hnode => h node (Expr.visited_subset_call harg hnode)
  rw [Gen.callStmt, Gen.callStmt, List.length_map]
  apply InStep.bind (paired_comment _)
  intro _
  apply InStep.bind (paired_call hcall _ hargs)
  intro _
  exact paired_whenReturns hcall (paired_pop .t0)

theorem paired_ret {value? : Option Expr}
    (h : ∀ value ∈ value?, ∀ node ∈ value.visited, p.Matches node) :
    p.Paired (Gen.ret value?) (Gen.ret (value?.map (Expr.mapIdents p.exchange))) := by
  have hbranch : p.Paired (do Gen.branch (← get).exit) (do Gen.branch (← get).exit) := by
    apply InStep.get
    intro g g' hg
    rw [hg.exit]
    exact paired_op rfl
  apply InStep.bind (paired_comment _)
  intro _
  cases value? with
  | none => exact hbranch
  | some value =>
      apply InStep.bind (paired_lower (h value rfl))
      intro _
      exact .bind (paired_pop .v0) fun _ => hbranch

def MatchesAll (p : Pairing) (es : List Expr) : Prop :=
  ∀ e ∈ es, ∀ node ∈ e.visited, p.Matches node

theorem MatchesAll.expr {stmt : Stmt} (h : p.MatchesAll stmt.allExprs) (e : Expr)
    (he : e ∈ stmt.exprs) : ∀ node ∈ e.visited, p.Matches node :=
  h e (stmt.exprs_subset he)

theorem MatchesAll.body {stmt : Stmt} (h : p.MatchesAll stmt.allExprs) (body : Block)
    (hbody : body ∈ stmt.bodies) : p.MatchesAll body.allExprs := by
  intro e he
  rw [Stmt.allExprs_eq] at h
  exact h e (List.mem_append_right _ (List.mem_flatMap.mpr ⟨body, hbody, he⟩))

theorem paired_lowerBlock {block : Block} (h : p.MatchesAll block.allExprs)
    (hstmts : ∀ stmt ∈ block.stmts, p.MatchesAll stmt.allExprs →
      p.Paired stmt.lower (stmt.mapIdents p.exchange).lower) :
    p.Paired block.lower (block.mapIdents p.exchange).lower := by
  obtain ⟨decls, stmts⟩ := block
  rw [Block.allExprs_eq] at h
  rw [Block.mapIdents_eq, Block.lower, Block.lower]
  induction stmts with
  | nil => exact .pure _
  | cons stmt stmts ih =>
      apply InStep.bind (hstmts stmt (by simp) fun e he => h e (by simp [he]))
      intro _
      apply ih
      · exact fun e he => h e (List.mem_append_right _ he)
      · exact fun other hother => hstmts other (by simp [hother])

/-- Statements that get the same answers are lowered alike. -/
theorem paired_lowerStmt {stmt : Stmt} (h : p.MatchesAll stmt.allExprs) :
    p.Paired stmt.lower (stmt.mapIdents p.exchange).lower := by
  induction stmt using Stmt.induction with
  | assign target value =>
      have hnodes := h.expr (.assign target value) (by simp [Stmt.exprs])
      rw [Stmt.mapIdents, Stmt.lower, Stmt.lower]
      apply paired_balanced
      refine .bind (paired_assign ?_ (paired_lower ?_)) fun _ => paired_pop .t0
      · exact fun node hnode => hnodes node (by simp [Expr.visited, hnode])
      · exact fun node hnode => hnodes node (by simp [Expr.visited, hnode])
  | increment target =>
      rw [Stmt.mapIdents, Stmt.lower, Stmt.lower]
      exact paired_balanced (paired_step (h.expr target (by simp [Stmt.exprs])) _ _)
  | decrement target =>
      rw [Stmt.mapIdents, Stmt.lower, Stmt.lower]
      exact paired_balanced (paired_step (h.expr target (by simp [Stmt.exprs])) _ _)
  | read target =>
      rw [Stmt.mapIdents, Stmt.lower, Stmt.lower]
      exact paired_balanced (paired_read (h.expr target (by simp [Stmt.exprs])))
  | write value =>
      rw [Stmt.mapIdents, Stmt.lower, Stmt.lower]
      exact paired_balanced (paired_write (h.expr value (by simp [Stmt.exprs])))
  | ifThen cond body ih =>
      have hcond := paired_lower (h.expr cond (by simp [Stmt.exprs]))
      have hbody := paired_lowerBlock (h.body body (by simp [Stmt.bodies])) ih
      rw [Stmt.mapIdents, Stmt.lower, Stmt.lower]
      exact paired_balanced (paired_ifThen hcond hbody)
  | ifElse cond thenBody elseBody ihthen ihelse =>
      have hcond := paired_lower (h.expr cond (by simp [Stmt.exprs]))
      have hthen := paired_lowerBlock (h.body thenBody (by simp [Stmt.bodies])) ihthen
      have helse := paired_lowerBlock (h.body elseBody (by simp [Stmt.bodies])) ihelse
      rw [Stmt.mapIdents, Stmt.lower, Stmt.lower]
      exact paired_balanced (paired_ifElse hcond hthen helse)
  | whileLoop cond body ih =>
      have hcond := paired_lower (h.expr cond (by simp [Stmt.exprs]))
      have hbody := paired_lowerBlock (h.body body (by simp [Stmt.bodies])) ih
      rw [Stmt.mapIdents, Stmt.lower, Stmt.lower]
      exact paired_balanced (paired_whileLoop hcond hbody)
  | repeatLoop count body ih =>
      have hcount := paired_lower (h.expr count (by simp [Stmt.exprs]))
      have hbody := paired_lowerBlock (h.body body (by simp [Stmt.bodies])) ih
      rw [Stmt.mapIdents, Stmt.lower, Stmt.lower]
      exact paired_balanced (paired_repeatLoop hcount hbody)
  | call callee args =>
      rw [Stmt.mapIdents, Expr.mapIdentsAll_eq_map, Stmt.lower, Stmt.lower]
      exact paired_balanced (paired_callStmt (h.expr _ (by simp [Stmt.exprs])))
  | ret value? pos =>
      rw [Stmt.mapIdents, Stmt.lower, Stmt.lower]
      apply paired_balanced
      apply paired_ret
      intro value hvalue
      exact h.expr value (by simpa [Stmt.exprs] using hvalue)

/-! ## Functions -/

theorem inStep_prologue (name : String) {info info' : FunctionInfo}
    (hparams : info'.paramsSize = info.paramsSize) (hlocals : info'.localsSize = info.localsSize) :
    p.InStep p.Between p.Inside (Gen.prologue name info) (Gen.prologue name info') := by
  rw [Gen.prologue, Gen.prologue, hparams, hlocals]
  apply InStep.bind (inStep_functionLabel name)
  intro label
  apply InStep.bind (emit fun _ _ => p.enter)
  intro _
  apply InStep.get
  intro g g' hg
  apply InStep.when (by rw [isEntryPoint_right hg.left hg.right]) (paired_op rfl)
  apply InStep.bind (paired_comment _)
  intro _
  apply InStep.bind (paired_defineLabel label)
  intro _
  apply InStep.bind (paired_storeWord .ra)
  intro _
  apply InStep.bind (paired_storeWord .fp)
  intro _
  apply InStep.bind (.liftM (.refl (fun _ => rfl) _))
  intro size
  apply InStep.bind (paired_opWith _ rfl)
  intro _
  exact InStep.ite Iff.rfl (paired_opWith _ rfl) (.pure _)

theorem paired_epilogue (name : String) {info info' : FunctionInfo}
    (hparams : info'.paramsSize = info.paramsSize) :
    p.Paired (Gen.epilogue name info) (Gen.epilogue name info') := by
  rw [Gen.epilogue, Gen.epilogue, hparams]
  apply InStep.bind (paired_comment _)
  intro _
  apply InStep.get
  intro g g' hg
  rw [hg.exit]
  apply InStep.bind (paired_defineLabel g.exit)
  intro _
  apply InStep.bind (.liftM (.refl (fun _ => rfl) _))
  intro savedReturn
  apply InStep.bind (paired_opWith _ rfl)
  intro _
  apply InStep.bind (paired_opWith _ rfl)
  intro _
  apply InStep.bind (.liftM (.refl (fun _ => rfl) _))
  intro linkage
  apply InStep.bind (.liftM (.refl (fun _ => rfl) _))
  intro savedFrame
  apply InStep.bind (paired_opWith _ rfl)
  intro _
  apply InStep.bind (paired_opWith _ rfl)
  intro _
  apply InStep.get
  intro g g' hg
  apply InStep.ite (by rw [isEntryPoint_right hg.left hg.right])
  · exact .bind (paired_opWith _ rfl) fun _ => paired_opWith _ rfl
  · exact paired_opWith _ rfl

/-! ## Programs -/

structure SameFrame (info info' : FunctionInfo) : Prop where
  paramsSize : info'.paramsSize = info.paramsSize
  localsSize : info'.localsSize = info.localsSize

structure MatchesFn (p : Pairing) (fn : FnDecl) : Prop where
  name : (p.exchange fn.id).name = fn.id.name
  info : p.Answers SameFrame (fn.info p.left.symbols)
    ((fn.mapIdents p.exchange).info p.right.symbols)
  body : p.MatchesAll fn.body.allExprs

/-- A declaration that looks the same in both runs.  A struct may not, as it has no code. -/
def MatchesDecl (p : Pairing) : Decl → Prop
  | .var decl => (p.exchange decl.id).name = decl.id.name
  | .fn fn => p.MatchesFn fn
  | .struct _ => True

theorem inStep_global {decl : VarDecl} (h : (p.exchange decl.id).name = decl.id.name) :
    p.InStep p.Between p.Between (Gen.global decl) (Gen.global (decl.mapIdents p.exchange)) := by
  have hrun : ∀ (g : Generator) (decl : VarDecl), Gen.global decl g =
      .ok () { g with
        lines := g.lines ++ g.context.options.globalLines (globalLabel decl.id.name) } := by
    intro g decl
    have hpush : ∀ (lines : Array Line) (a b c : Line),
        ((lines.push a).push b).push c = lines ++ [a, b, c] := by simp
    rw [Options.globalLines, ← hpush]
    rfl
  intro g g' hg
  rw [hrun, hrun, hg.left.options, hg.right.options, VarDecl.mapIdents, h]
  exact .ok (alike_append hg (p.global _ hg.lines))

theorem inStep_lowerFn {fn : FnDecl} (h : p.MatchesFn fn) :
    p.InStep p.Between p.Between fn.lower (fn.mapIdents p.exchange).lower := by
  have hbody : p.Paired fn.body.lower (fn.body.mapIdents p.exchange).lower :=
    paired_lowerBlock h.body fun _ _ => paired_lowerStmt
  have hname : (fn.mapIdents p.exchange).id.name = fn.id.name := h.name
  rw [FnDecl.lower, FnDecl.lower, hname]
  apply InStep.get
  intro g g' hg
  rw [hg.left.symbols, hg.right.symbols]
  apply InStep.lift h.info
  intro info info' hinfo
  apply InStep.bind (inStep_exitLabel fn.id.name)
  intro exit
  apply InStep.bind (S := p.Between)
  · apply InStep.modify
    intro g g' hg
    exact { hg with exit := rfl }
  intro _
  apply InStep.bind (inStep_prologue fn.id.name hinfo.paramsSize hinfo.localsSize)
  intro _
  apply InStep.get
  intro g g' hg
  rw [hg.depth]
  apply InStep.when Iff.rfl (.fault (p.faults_refl _))
  apply InStep.bind hbody
  intro _
  apply (paired_epilogue fn.id.name hinfo.paramsSize).mono
  intro g g' hg
  exact { hg with lines := p.leave hg.lines }

theorem inStep_lowerDecl {decl : Decl} (h : p.MatchesDecl decl) :
    p.InStep p.Between p.Between decl.lower (decl.mapIdents p.exchange).lower := by
  cases decl with
  | var decl => exact inStep_global h
  | fn fn => exact inStep_lowerFn h
  | struct struct => exact .pure _

/-- Declarations that look the same are lowered alike. -/
theorem inStep_lowerAll {decls : List Decl} (h : ∀ decl ∈ decls, p.MatchesDecl decl) :
    p.InStep p.Between p.Between (Decl.lowerAll decls)
      (Decl.lowerAll (decls.map (Decl.mapIdents p.exchange))) := by
  induction decls with
  | nil => exact .pure _
  | cons decl decls ih =>
      apply InStep.bind (inStep_lowerDecl (h decl (by simp)))
      intro _
      exact ih fun other hother => h other (by simp [hother])

/-! ## Runs on the same tree -/

theorem pos_self (id : Ident) : ((fun id : Ident => id) id).pos = id.pos := rfl

/-- A fault that names an expression names the same one in both runs. -/
theorem exprDepth_self (e : Expr) (depth expected : Nat) : Fault.exprDepth e depth expected =
    .exprDepth (e.mapIdents fun id => id) depth expected := by
  rw [e.mapIdents_self]

theorem noAddress_self (e : Expr) : Fault.noAddress e = .noAddress (e.mapIdents fun id => id) := by
  rw [e.mapIdents_self]

/-- Two runs on the same symbols and the same tree get the same answers. -/
theorem matchesDecl_self (hexchange : p.exchange = fun id => id)
    (hsymbols : p.right.symbols = p.left.symbols) (decl : Decl) : p.MatchesDecl decl := by
  have hmatches : ∀ e : Expr, p.Matches e := by
    intro e
    cases e with
    | name id =>
        rw [Matches, MatchesType, hexchange, hsymbols]
        exact ⟨.refl (fun _ => .refl _) _, .refl (fun _ => rfl) _⟩
    | field base id =>
        rw [Matches, MatchesType, hexchange, hsymbols]
        exact .refl (fun _ => .refl _) _
    | call callee args =>
        rw [Matches, hexchange, hsymbols]
        exact ⟨rfl, .refl (fun _ => .refl _) _⟩
    | int _ _ | str _ _ | bool _ _ | assign _ _ | unary _ _ | binary _ _ _ => trivial
  cases decl with
  | var decl => rw [MatchesDecl, hexchange]
  | fn fn =>
      refine ⟨by rw [hexchange], ?_, fun e _ node _ => hmatches node⟩
      rw [hsymbols, FnDecl.info, FnDecl.info, FnDecl.mapIdents, hexchange]
      exact .refl (fun _ => ⟨rfl, rfl⟩) _
  | struct struct => trivial

inductive Finished (p : Pairing) : Except Stop Assembly → Except Stop Assembly → Prop
  | ok {assembly assembly' : Assembly} (lines : p.between assembly.lines assembly'.lines)
      (strings : assembly'.strings = assembly.strings)
      (maxDepth : assembly'.maxDepth = assembly.maxDepth) :
      Finished p (.ok assembly) (.ok assembly')
  | unsupported (u : Unsupported) : Finished p (.error (.unsupported u)) (.error (.unsupported u))
  | fault {fault fault' : Fault} (h : p.faults fault fault') :
      Finished p (.error (.fault fault)) (.error (.fault fault'))

/-- Code generation of programs that look the same has results that correspond. -/
theorem finished {program : Program} (h : ∀ decl ∈ program.decls, p.MatchesDecl decl)
    (hlines : p.between [] []) (hlabels : p.right.labels = p.left.labels)
    (hstrings : p.right.strings = p.left.strings) :
    p.Finished (Generator.finish { context := p.left } program)
      (Generator.finish { context := p.right } (program.mapIdents p.exchange)) := by
  have hstart : p.Between { context := p.left } { context := p.right } :=
    ⟨⟨rfl, rfl⟩, ⟨rfl, rfl⟩, hlabels, hstrings, rfl, rfl, rfl, hlines⟩
  have hagree := inStep_lowerAll h _ _ hstart
  rw [Generator.finish, Generator.finish, Program.mapIdents]
  generalize Decl.lowerAll program.decls { context := p.left } = result,
    Decl.lowerAll (program.decls.map (Decl.mapIdents p.exchange)) { context := p.right } = result'
    at hagree
  cases hagree with
  | ok hg =>
      refine .ok hg.lines ?_ hg.maxDepth
      simp only [Generator.assembly, hg.strings]
  | unsupported => exact .unsupported _
  | fault hfault => exact .fault hfault

end Pairing

end StackMips
