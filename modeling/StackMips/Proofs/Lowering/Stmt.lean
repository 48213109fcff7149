import StackMips.Proofs.Lowering.Expr

/-!
# Code of well-typed statements

The script of a statement leaves the operand stack as deep as it was, and the generator performs
it.
-/

namespace StackMips

open Mips

namespace Stmt

variable {symbols : Arena}

structure Lowers (symbols : Arena) (stmt : Stmt) : Prop where
  depth : ∀ (c : Context) (exit : Label) (d : Nat), c.symbols = symbols → stmt.blocked = [] →
    Script.depth d (stmt.script c exit) = d
  performs : ∀ g : Generator, g.context.symbols = symbols →
    Performs stmt.lower g (stmt.script g.context g.exit) stmt.blocked

theorem lowers_of {stmt : Stmt} {code : Gen Unit} (hlower : stmt.lower = Gen.balanced code)
    (hdepth : ∀ (c : Context) (exit : Label) (d : Nat), c.symbols = symbols → stmt.blocked = [] →
      Script.depth d (stmt.script c exit) = d)
    (hcode : ∀ g : Generator, g.context.symbols = symbols →
      Performs code g (stmt.script g.context g.exit) stmt.blocked) : stmt.Lowers symbols where
  depth := hdepth
  performs g hg := by
    rw [hlower]
    exact (hcode g hg).balanced fun hblocked => hdepth _ _ _ hg hblocked

/-! ## Simple statements -/

theorem assign_lowers {target value : Expr} (h : (Expr.assign target value).HasValue symbols)
    (hlocation : target.isLocation) (hvalue : value.Lowers symbols) :
    (assign target value).Lowers symbols := by
  have hdepth (c : Context) (d : Nat) (hc : c.symbols = symbols)
      (hblocked : (Expr.assign target value).blocked = []) :
      Script.depth d ((Expr.assign target value).script c) = d + 1 := by
    obtain ⟨hvalueBlocked, htargetBlocked⟩ := List.append_eq_nil_iff.mp hblocked
    have htarget := Expr.depth_address hc h.assign.1 hlocation htargetBlocked
    simp [Expr.script, hvalue.depth c d hc hvalueBlocked, htarget]
  refine lowers_of (by rw [lower]) ?_ fun g hg => ?_
  · intro c exit d hc hblocked
    simp [script, hdepth c d hc hblocked]
  · refine Performs.of_eq ((Expr.assign_performs h hlocation hvalue hg).seq fun hblocked =>
      .ok (Gen.pop_apply _ ?_)) (by rw [script]) (by simp [Expr.blocked, blocked])
    simp [hdepth _ _ hg hblocked]

/-- Increments and decrements compute the address before they look at the value. -/
theorem step_lowers {stmt : Stmt} {op : AluOp} {text : String} {target : Expr}
    (h : target.HasValue symbols) (hlocation : target.isLocation)
    (htarget : target.Lowers symbols) (hlower : stmt.lower = Gen.balanced (Gen.step op text target))
    (hscript : ∀ c exit, stmt.script c exit = c.step op text target)
    (hstmt : stmt.blocked = target.blockedTarget) : stmt.Lowers symbols := by
  have hname : target.blockedTarget = [] → target.blocked = [] := by
    intro hblocked
    obtain ⟨id, rfl⟩ := Expr.eq_name_of_blockedTarget hlocation hblocked
    rfl
  refine lowers_of hlower ?_ fun g hg => ?_
  · intro c exit d hc hblocked
    rw [hstmt] at hblocked
    simp [hscript, Context.step, Expr.depth_address hc h hlocation hblocked, htarget.depth, hc,
      hname hblocked]
  · have hperforms : Performs (Gen.step op text target) g (g.context.step op text target)
        (target.blockedTarget ++ target.blocked) := by
      refine Performs.of_eq (.step (Gen.comment_apply _ g)
        ((Expr.address_performs (by simpa using hg) h hlocation).seq fun hblocked =>
          .step (Gen.pop_apply _ ?_) ((htarget.performs _ (by simpa using hg)).seq
            fun _ => .step (Gen.pop_apply _ ?_) (.step (Gen.op_apply _ _)
              (.ok (Gen.op_apply _ _)))))) ?_ ?_
      · simp [Expr.depth_address hg h hlocation hblocked]
      · simp [Expr.depth_address hg h hlocation hblocked, htarget.depth, hg, hname hblocked]
      · simp [Context.step]
      · simp
    rw [hscript, hstmt]
    refine hperforms.of_head ?_
    cases hblocked : target.blockedTarget with
    | nil => simp [hname hblocked]
    | cons u rest => rfl

theorem read_lowers {target : Expr} (h : target.HasValue symbols) (hlocation : target.isLocation) :
    (read target).Lowers symbols := by
  refine lowers_of (by rw [lower]) ?_ fun g hg => ?_
  · intro c exit d hc hblocked
    simp [script, Expr.depth_address hc h hlocation hblocked]
  · refine Performs.of_eq (.step (Gen.comment_apply _ g) (.step (Gen.op_apply _ _)
      (.step (Gen.op_apply _ _) ((Expr.address_performs (by simpa using hg) h hlocation).seq
        fun hblocked => .step (Gen.pop_apply _ ?_) (.ok (Gen.op_apply _ _)))))) ?_ ?_
    · simp [Expr.depth_address hg h hlocation hblocked]
    · simp [script]
    · simp [blocked]

theorem printer_eq {c : Context} {value : Expr} {ty : Ty} (hc : c.symbols = symbols)
    (h : value.HasType symbols ty) :
    c.printer value = if ty.isString then .printString else .printInt := by
  rw [Context.printer, hc, Expr.typeOf_eq h]
  cases ty <;> rfl

theorem write_lowers {value : Expr} (hsymbols : symbols.Typed) (h : value.HasValue symbols)
    (hgrammar : value.InGrammar) : (write value).Lowers symbols := by
  have hvalue := Expr.lowers hsymbols h hgrammar
  refine lowers_of (by rw [lower]) ?_ fun g hg => ?_
  · intro c exit d hc hblocked
    simp [script, hvalue.depth, hc, show value.blocked = [] from hblocked]
  · obtain ⟨ty, hty, _⟩ := h
    have htypeOf : value.typeOf g.context.symbols = .ok ty := hg ▸ Expr.typeOf_eq hty
    refine Performs.of_eq (.get (.lift htypeOf (.step (Gen.comment_apply _ g)
      ((hvalue.performs _ (by simpa using hg)).seq fun hblocked => .step (Gen.pop_apply _ ?_)
        (.step (Gen.op_apply _ _) (.ok (Gen.op_apply _ _))))))) ?_ ?_
    · simp [hvalue.depth, hg, hblocked]
    · simp [script, printer_eq hg hty]
    · simp [blocked]

theorem call_lowers {callee : Ident} {args : List Expr} {ty : Ty} (hsymbols : symbols.Typed)
    (h : (Expr.call callee args).HasType symbols ty)
    (hgrammar : (Expr.call callee args).InGrammar) : (call callee args).Lowers symbols := by
  have hargs : ∀ arg ∈ args, arg.Lowers symbols := fun arg harg =>
    Expr.lowers hsymbols (Expr.hasValue_args hsymbols h arg harg) (hgrammar.call arg harg)
  have hdepth : ∀ (c : Context) (d : Nat), c.symbols = symbols → (call callee args).blocked = [] →
      Script.depth d ((Expr.call callee args).script c) = if ty.isVoid then d else d + 1 := by
    intro c d hc hblocked
    rw [blocked, Expr.blockedAll_eq_flatMap, List.flatMap_eq_nil_iff] at hblocked
    exact Expr.depth_call hc h (Expr.depth_scriptAll_of hc fun arg harg c d hc =>
      (hargs arg harg).depth c d hc (hblocked arg harg)) d
  refine lowers_of (by rw [lower]) ?_ fun g hg => ?_
  · intro c exit d hc hblocked
    cases hvoid : ty.isVoid <;>
      simp [script, hdepth c d hc hblocked, Expr.yields_eq hc h, hvoid]
  · refine Performs.of_eq (.step (Gen.comment_apply _ g)
      ((Expr.call_performs h hargs (by simpa using hg)).seq fun hblocked =>
        Expr.whenReturns_performs h (by simpa using hg) fun hvoid => Gen.pop_apply _ ?_)) ?_ ?_
    · simp [hdepth _ _ hg hblocked, hvoid]
    · simp [script]
    · simp [Expr.blocked, blocked]

theorem ret_lowers {value? : Option Expr} {pos : Pos}
    (h : ∀ value ∈ value?, value.Lowers symbols) : (ret value? pos).Lowers symbols := by
  refine lowers_of (by rw [lower]) ?_ fun g hg => ?_
  · intro c exit d hc hblocked
    cases value? with
    | none => simp [script]
    | some value =>
        have hvalue := h value rfl
        simp [script, hvalue.depth, hc, show value.blocked = [] from hblocked]
  · cases value? with
    | none =>
        refine Performs.of_eq (.step (Gen.comment_apply _ g) (.get
          (.ok (Gen.op_apply _ _)))) ?_ rfl
        simp [script]
    | some value =>
        have hvalue := h value rfl
        refine Performs.of_eq (.step (Gen.comment_apply _ g)
          ((hvalue.performs _ (by simpa using hg)).seq fun hblocked =>
            .step (Gen.pop_apply _ ?_) (.get (.ok (Gen.op_apply _ _))))) ?_ ?_
        · simp [hvalue.depth, hg, hblocked]
        · simp [script]
        · simp [blocked]

/-! ## Blocks -/

end Stmt

structure Block.Lowers (symbols : Arena) (block : Block) : Prop where
  depth : ∀ (c : Context) (exit : Label) (d : Nat), c.symbols = symbols → block.blocked = [] →
    Script.depth d (block.script c exit) = d
  performs : ∀ g : Generator, g.context.symbols = symbols →
    Performs block.lower g (block.script g.context g.exit) block.blocked

theorem Block.lowers_of {symbols : Arena} {block : Block}
    (h : ∀ stmt ∈ block.stmts, stmt.Lowers symbols) : block.Lowers symbols := by
  obtain ⟨decls, stmts⟩ := block
  have hdepth : ∀ (c : Context) (exit : Label) (d : Nat), c.symbols = symbols →
      Stmt.blockedAll stmts = [] → Script.depth d (Stmt.scriptAll c exit stmts) = d := by
    induction stmts with
    | nil => exact fun _ _ _ _ _ => rfl
    | cons stmt stmts ih =>
        intro c exit d hc hblocked
        obtain ⟨hstmt, hstmts⟩ := List.append_eq_nil_iff.mp hblocked
        rw [Stmt.scriptAll, Script.depth_append, (h stmt (by simp)).depth c exit d hc hstmt,
          ih (fun other hother => h other (by simp_all)) _ _ _ (by simpa using hc) hstmts]
  have hperforms : ∀ g : Generator, g.context.symbols = symbols →
      Performs (Stmt.lowerAll stmts) g (Stmt.scriptAll g.context g.exit stmts)
        (Stmt.blockedAll stmts) := by
    clear hdepth
    induction stmts with
    | nil => exact fun g _ => .ok rfl
    | cons stmt stmts ih =>
        intro g hg
        refine Performs.of_eq (((h stmt (by simp)).performs g hg).seq fun _ =>
          ih (fun other hother => h other (by simp_all)) _ (by simpa using hg)) ?_ rfl
        simp [Stmt.scriptAll]
  exact ⟨hdepth, hperforms⟩

namespace Stmt

variable {symbols : Arena} {cond : Expr} {body : Block}

theorem branchIfFalse_performs (hcond : cond.Lowers symbols) {target : Label} {g : Generator}
    (hg : g.context.symbols = symbols) :
    Performs (Gen.branchIfFalse cond.lower target) g (g.context.branchIfFalse cond target)
      cond.blocked := by
  refine Performs.of_eq ((hcond.performs g hg).seq fun hblocked =>
    .step (Gen.pop_apply _ ?_) (.ok (Gen.op_apply _ _))) ?_ ?_
  · simp [hcond.depth, hg, hblocked]
  · simp [Context.branchIfFalse]
  · simp

theorem depth_branchIfFalse (hcond : cond.Lowers symbols) {target : Label} {c : Context}
    (hc : c.symbols = symbols) (hblocked : cond.blocked = []) (d : Nat) :
    Script.depth d (c.branchIfFalse cond target) = d := by
  simp [Context.branchIfFalse, hcond.depth, hc, hblocked]

theorem ifThen_lowers (hcond : cond.Lowers symbols) (hbody : body.Lowers symbols) :
    (ifThen cond body).Lowers symbols := by
  refine lowers_of (by rw [lower]) ?_ fun g hg => ?_
  · intro c exit d hc hblocked
    obtain ⟨hcondBlocked, hbodyBlocked⟩ := List.append_eq_nil_iff.mp hblocked
    simp [script, depth_branchIfFalse hcond, hbody.depth, hc, hcondBlocked, hbodyBlocked]
  · refine Performs.of_eq (.step (Gen.comment_apply _ g) (.step (Gen.freshLabel_apply _)
      ((branchIfFalse_performs hcond (by simpa using hg)).seq fun _ =>
        (hbody.performs _ (by simpa using hg)).seq fun _ =>
          .ok (Gen.defineLabel_apply _ _)))) ?_ ?_
    · simp [script]
    · simp [blocked]

theorem ifElse_lowers {elseBody : Block} (hcond : cond.Lowers symbols)
    (hbody : body.Lowers symbols) (helse : elseBody.Lowers symbols) :
    (ifElse cond body elseBody).Lowers symbols := by
  refine lowers_of (by rw [lower]) ?_ fun g hg => ?_
  · intro c exit d hc hblocked
    simp only [blocked, List.append_eq_nil_iff] at hblocked
    simp [script, depth_branchIfFalse hcond, hbody.depth, helse.depth, hc, hblocked]
  · refine Performs.of_eq (.step (Gen.comment_apply _ g) (.step (Gen.freshLabel_apply _)
      (.step (Gen.freshLabel_apply _) ((branchIfFalse_performs hcond (by simpa using hg)).seq
        fun _ => (hbody.performs _ (by simpa using hg)).seq fun _ => .step (Gen.op_apply _ _)
          (.step (Gen.defineLabel_apply _ _) ((helse.performs _ (by simpa using hg)).seq fun _ =>
            .ok (Gen.defineLabel_apply _ _))))))) ?_ ?_
    · simp [script]
    · simp [blocked]

theorem whileLoop_lowers (hcond : cond.Lowers symbols) (hbody : body.Lowers symbols) :
    (whileLoop cond body).Lowers symbols := by
  refine lowers_of (by rw [lower]) ?_ fun g hg => ?_
  · intro c exit d hc hblocked
    obtain ⟨hcondBlocked, hbodyBlocked⟩ := List.append_eq_nil_iff.mp hblocked
    simp [script, depth_branchIfFalse hcond, hbody.depth, hc, hcondBlocked, hbodyBlocked]
  · refine Performs.of_eq (.step (Gen.comment_apply _ g) (.step (Gen.freshLabel_apply _)
      (.step (Gen.freshLabel_apply _) (.step (Gen.defineLabel_apply _ _)
        ((branchIfFalse_performs hcond (by simpa using hg)).seq fun _ =>
          (hbody.performs _ (by simpa using hg)).seq fun _ => .step (Gen.op_apply _ _)
            (.ok (Gen.defineLabel_apply _ _))))))) ?_ ?_
    · simp [script]
    · simp [blocked]

theorem repeatLoop_lowers (hcond : cond.Lowers symbols) (hbody : body.Lowers symbols) :
    (repeatLoop cond body).Lowers symbols := by
  refine lowers_of (by rw [lower]) ?_ fun g hg => ?_
  · intro c exit d hc hblocked
    obtain ⟨hcondBlocked, hbodyBlocked⟩ := List.append_eq_nil_iff.mp hblocked
    simp [script, hcond.depth, hbody.depth, hc, hcondBlocked, hbodyBlocked]
  · refine Performs.of_eq (.step (Gen.comment_apply _ g) (.step (Gen.freshLabel_apply _)
      (.step (Gen.freshLabel_apply _) ((hcond.performs _ (by simpa using hg)).seq
        fun hcondBlocked => .step (Gen.defineLabel_apply _ _) (.step (Gen.op_apply _ _)
          (.step (Gen.op_apply _ _) (.step (Gen.op_apply _ _) (.step (Gen.op_apply _ _)
            ((hbody.performs _ (by simpa using hg)).seq fun hbodyBlocked =>
              .step (Gen.op_apply _ _) (.step (Gen.defineLabel_apply _ _)
                (.ok (Gen.pop_apply _ ?_)))))))))))) ?_ ?_
    · simp [hcond.depth, hbody.depth, hg, hcondBlocked, hbodyBlocked]
    · simp [script]
    · simp [blocked]

theorem isValue_of_isReadable (hsymbols : symbols.Typed) {target : Expr} {ty : Ty}
    (hlocation : target.isLocation) (h : target.HasType symbols ty) (hty : ty.isReadable) :
    ty.isValue := by
  cases h with
  | name hid | field hid =>
      obtain ⟨herror, hvoid, _⟩ := hsymbols.of_ty? hid
      cases ty <;> first | rfl | contradiction
  | int _ _ | str _ _ | bool _ _ | assign _ _ _ | call _ _ _ | neg _ | not _ | arithmetic _ _ _
  | logical _ _ _ | relational _ _ _ | equality _ _ _ _ => cases hlocation

theorem hasValue_of_assign (hsymbols : symbols.Typed) {target value : Expr} {ty : Ty}
    (hlocation : target.isLocation) (h : (Expr.assign target value).HasType symbols ty) :
    (Expr.assign target value).HasValue symbols := by
  refine ⟨ty, h, ?_⟩
  cases h with
  | assign htarget _ hassignable =>
      have hreadable : ty.isReadable := by cases ty <;> first | rfl | cases hassignable
      exact isValue_of_isReadable hsymbols hlocation htarget hreadable

theorem hasValue_of_isWritable (hsymbols : symbols.Typed) {value : Expr} {ty : Ty}
    (h : value.HasType symbols ty) (hty : ty.isWritable) : value.HasValue symbols := by
  have herror := h.isError hsymbols
  exact ⟨ty, h, by cases ty <;> first | rfl | contradiction⟩

theorem body_lowers {returnType : Ty} {stmt : Stmt} (body : Block) (hmem : body ∈ stmt.bodies)
    (h : ∀ node ∈ stmt.nodes, node.IsTyped symbols returnType) (hgrammar : stmt.InGrammar)
    (ih : ∀ inner ∈ body.stmts, (∀ node ∈ inner.nodes, node.IsTyped symbols returnType) →
      inner.InGrammar → inner.Lowers symbols) : body.Lowers symbols := by
  refine Block.lowers_of fun inner hinner => ?_
  have hsubset := nodes_subset_of_body body hmem hinner
  exact ih inner hinner (fun node hnode => h node (hsubset hnode))
    fun node hnode => hgrammar node (hsubset hnode)

/-- The generator performs the script of every well-typed statement. -/
theorem lowers (hsymbols : symbols.Typed) {returnType : Ty} (hreturn : returnType.isReturnable)
    {stmt : Stmt} (h : ∀ node ∈ stmt.nodes, node.IsTyped symbols returnType)
    (hgrammar : stmt.InGrammar) : stmt.Lowers symbols := by
  have hself := h stmt stmt.self_mem_nodes
  induction stmt using Stmt.induction with
  | assign target value =>
      have hassign := hgrammar.exprs (e := .assign target value) (by simp [exprs])
      cases hself with
      | assign hty =>
          have hvalue := hasValue_of_assign hsymbols hassign.assign.1 hty
          exact assign_lowers hvalue hassign.assign.1
            (Expr.lowers hsymbols hvalue.assign.2 hassign.assign.2.2)
  | increment target =>
      have htarget := hgrammar.exprs (e := target) (by simp [exprs])
      cases hself with
      | increment hty =>
          exact step_lowers ⟨_, hty, rfl⟩ hgrammar.isFormed
            (Expr.lowers hsymbols ⟨_, hty, rfl⟩ htarget)
            (by rw [lower, Gen.increment]) (fun _ _ => by rw [script]) (by rw [blocked])
  | decrement target =>
      have htarget := hgrammar.exprs (e := target) (by simp [exprs])
      cases hself with
      | decrement hty =>
          exact step_lowers ⟨_, hty, rfl⟩ hgrammar.isFormed
            (Expr.lowers hsymbols ⟨_, hty, rfl⟩ htarget)
            (by rw [lower, Gen.decrement]) (fun _ _ => by rw [script]) (by rw [blocked])
  | read target =>
      have hlocation : target.isLocation := hgrammar.isFormed
      cases hself with
      | read hty hreadable =>
          exact read_lowers ⟨_, hty, isValue_of_isReadable hsymbols hlocation hty hreadable⟩
            hlocation
  | write value =>
      have hvalue := hgrammar.exprs (e := value) (by simp [exprs])
      cases hself with
      | write hty hwritable =>
          exact write_lowers hsymbols (hasValue_of_isWritable hsymbols hty hwritable) hvalue
  | ifThen cond body ih =>
      have hcond := hgrammar.exprs (e := cond) (by simp [exprs])
      cases hself with
      | ifThen hty =>
          exact ifThen_lowers (Expr.lowers hsymbols ⟨_, hty, rfl⟩ hcond)
            (body_lowers body (by simp [bodies]) h hgrammar fun inner hinner h hgrammar =>
              ih inner hinner h hgrammar (h inner inner.self_mem_nodes))
  | whileLoop cond body ih =>
      have hcond := hgrammar.exprs (e := cond) (by simp [exprs])
      cases hself with
      | whileLoop hty =>
          exact whileLoop_lowers (Expr.lowers hsymbols ⟨_, hty, rfl⟩ hcond)
            (body_lowers body (by simp [bodies]) h hgrammar fun inner hinner h hgrammar =>
              ih inner hinner h hgrammar (h inner inner.self_mem_nodes))
  | repeatLoop count body ih =>
      have hcount := hgrammar.exprs (e := count) (by simp [exprs])
      cases hself with
      | repeatLoop hty =>
          exact repeatLoop_lowers (Expr.lowers hsymbols ⟨_, hty, rfl⟩ hcount)
            (body_lowers body (by simp [bodies]) h hgrammar fun inner hinner h hgrammar =>
              ih inner hinner h hgrammar (h inner inner.self_mem_nodes))
  | ifElse cond thenBody elseBody ihthen ihelse =>
      have hcond := hgrammar.exprs (e := cond) (by simp [exprs])
      cases hself with
      | ifElse hty =>
          exact ifElse_lowers (Expr.lowers hsymbols ⟨_, hty, rfl⟩ hcond)
            (body_lowers thenBody (by simp [bodies]) h hgrammar fun inner hinner h hgrammar =>
              ihthen inner hinner h hgrammar (h inner inner.self_mem_nodes))
            (body_lowers elseBody (by simp [bodies]) h hgrammar fun inner hinner h hgrammar =>
              ihelse inner hinner h hgrammar (h inner inner.self_mem_nodes))
  | call callee args =>
      have hcall := hgrammar.exprs (e := .call callee args) (by simp [exprs])
      cases hself with
      | call hty => exact call_lowers hsymbols hty hcall
  | ret value? pos =>
      refine ret_lowers fun value hvalue => ?_
      obtain rfl := Option.mem_def.mp hvalue
      have hvalue := hgrammar.exprs (e := value) (by simp [exprs])
      cases hself with
      | retValue hty hvoid =>
          exact Expr.lowers hsymbols ⟨_, hty, Ty.isValue_of_isReturnable hreturn hvoid⟩ hvalue

end Stmt

theorem Block.lowers {symbols : Arena} (hsymbols : symbols.Typed) {returnType : Ty}
    (hreturn : returnType.isReturnable) {block : Block} (h : block.WellTyped symbols returnType)
    (hgrammar : block.InGrammar) : block.Lowers symbols := by
  rw [WellTyped, Block.nodes_eq] at h
  exact Block.lowers_of fun stmt hstmt => Stmt.lowers hsymbols hreturn
    (fun node hnode => h node (List.mem_flatMap.mpr ⟨stmt, hstmt, hnode⟩)) (hgrammar stmt hstmt)

end StackMips
