import StackMips.Proofs.Lowering.Accepted
import StackMips.Proofs.Lowering.Ranges
import StackMips.Proofs.Resolution.TopLevel

/-!
# The largest depth of the operand stack

The generator counts the words on the operand stack and keeps the largest count.  A script alone
says what that count is, and for the script of a tree it is the peak of the tree above the depth
where the script starts.  Every function starts from an empty stack, so the count of a program is
the largest peak of its bodies.
-/

namespace StackMips

open Mips

/-! ## Scripts -/

namespace Script

/-- The largest depth that a script reaches from a depth. -/
def highest (d : Nat) : Script → Nat
  | [] => d
  | action :: script => max d (highest (action.depth d) script)

@[simp] theorem highest_nil (d : Nat) : highest d [] = d := rfl

@[simp] theorem highest_cons (d : Nat) (action : Action) (script : Script) :
    highest d (action :: script) = max d (highest (action.depth d) script) := rfl

theorem le_highest (d : Nat) (script : Script) : d ≤ highest d script := by
  cases script with
  | nil => exact Nat.le_refl _
  | cons action script => exact Nat.le_max_left _ _

@[simp] theorem highest_append (d : Nat) (a b : Script) :
    highest d (a ++ b) = max (highest d a) (highest (depth d a) b) := by
  induction a generalizing d with
  | nil => exact (Nat.max_eq_right (le_highest d b)).symm
  | cons action a ih =>
      rw [List.cons_append, highest_cons, ih, highest_cons, depth_cons, Nat.max_assoc]

theorem depth_le_highest (d : Nat) (script : Script) : depth d script ≤ highest d script := by
  induction script generalizing d with
  | nil => exact Nat.le_refl _
  | cons action script ih => exact Nat.le_trans (ih _) (Nat.le_max_right _ _)

end Script

namespace Action

/-- Only a push goes above the largest depth so far. -/
theorem maxDepth_eq (g : Generator) (h : g.depth ≤ g.maxDepth) (action : Action) :
    action.maxDepth g = max g.maxDepth (action.depth g.depth) := by
  cases action with
  | push register => rfl
  | emit _ | pop _ | release _ | mint | pool _ _ =>
      simp only [maxDepth, depth]
      omega

end Action

theorem Generator.maxDepth_perform (g : Generator) (h : g.depth ≤ g.maxDepth) (script : Script) :
    (g.perform script).maxDepth = max g.maxDepth (script.highest g.depth) := by
  induction script generalizing g with
  | nil => exact (Nat.max_eq_left h).symm
  | cons action script ih =>
      have hstep : (action.apply g).maxDepth = max g.maxDepth (action.depth g.depth) :=
        action.maxDepth_eq g h
      have hdepth : (action.apply g).depth = action.depth g.depth := rfl
      have hle := Script.le_highest (action.depth g.depth) script
      rw [perform_cons, ih _ (by omega), hstep, hdepth, Script.highest_cons]
      omega

namespace Context

@[simp] theorem highest_note (c : Context) (text : String) (d : Nat) :
    Script.highest d (c.note text) = d := by
  unfold note
  split <;> simp

end Context

/-! ## Expressions -/

namespace Expr

variable {symbols : Arena}

/-- The script of the expression leaves one word on the stack and reaches the peak. -/
structure Climbs (symbols : Arena) (e : Expr) : Prop where
  depth : ∀ (c : Context) (d : Nat), c.symbols = symbols → Script.depth d (e.script c) = d + 1
  highest : ∀ (c : Context) (d : Nat), c.symbols = symbols →
    Script.highest d (e.script c) = d + e.peak symbols

theorem Climbs.one_le_peak {e : Expr} (h : e.Climbs symbols) : 1 ≤ e.peak symbols := by
  have hle := Script.depth_le_highest 0 (e.script { symbols })
  rw [h.depth _ 0 rfl, h.highest _ 0 rfl] at hle
  omega

theorem highest_load {c : Context} {id : Ident} {ty : Ty} (h : c.symbols.ty? id = some ty)
    (d : Nat) : Script.highest d (c.load id) = d + 1 := by
  obtain ⟨location, hlocation⟩ := Arena.location?_isSome h
  rw [Context.load, hlocation]
  cases location <;> simp

theorem highest_address {c : Context} {target : Expr} (hc : c.symbols = symbols)
    (h : target.HasValue symbols) (hlocation : target.isLocation)
    (hblocked : target.blockedTarget = []) (d : Nat) :
    Script.highest d (c.address target) = d + 1 := by
  obtain ⟨id, rfl⟩ := eq_name_of_blockedTarget hlocation hblocked
  obtain ⟨ty, hty, _⟩ := h
  cases hty with
  | name hid =>
      obtain ⟨location, hlocation⟩ := Arena.location?_isSome hid
      rw [Context.address, Context.loadAddress, hc, hlocation]
      cases location <;> simp

/-- Arguments are pushed on top of those before them. -/
theorem highest_scriptAll {args : List Expr} (h : ∀ arg ∈ args, arg.Climbs symbols) (c : Context)
    (hc : c.symbols = symbols) (base pushed : Nat) :
    Script.highest (base + pushed) (Expr.scriptAll c args) =
      max (base + pushed) (base + Expr.peakAll symbols pushed args) := by
  induction args generalizing c pushed with
  | nil => simp [Expr.scriptAll, Expr.peakAll]
  | cons arg args ih =>
      obtain ⟨harg, hargs⟩ := List.forall_mem_cons.mp h
      have hrest := ih hargs (c.after (arg.script c)) (by simpa using hc) (pushed + 1)
      have hpeak := harg.one_le_peak
      rw [Expr.scriptAll, Expr.peakAll, Script.highest_append, harg.highest c _ hc,
        harg.depth c _ hc, Nat.add_assoc base pushed 1, hrest]
      omega

/-- A call reaches the peak of its arguments, or pushes the result. -/
theorem highest_call (callee : Ident) {args : List Expr}
    (hargs : ∀ arg ∈ args, arg.Climbs symbols) (c : Context) (d : Nat) (hc : c.symbols = symbols) :
    Script.highest d ((call callee args).script c) = d + (call callee args).peak symbols := by
  have hhighest : Script.highest d (Expr.scriptAll c args) =
      max d (d + Expr.peakAll symbols 0 args) := highest_scriptAll hargs c hc d 0
  have hdepth := depth_scriptAll_of hc (fun arg harg => (hargs arg harg).depth) d
  have hpushed := Script.depth_le_highest d (Expr.scriptAll c args)
  have hyields : (symbols.info? callee).any (!·.returnType.isVoid) = c.yields callee := by
    rw [Context.yields, hc]
  rw [hdepth, hhighest] at hpushed
  rw [peak, hyields, script]
  cases c.yields callee with
  | false =>
      simp [hdepth, hhighest]
      omega
  | true =>
      simp [hdepth, hhighest]
      omega

theorem climbs_of (hsymbols : symbols.Typed) {e : Expr} (h : e.HasValue symbols)
    (hgrammar : e.InGrammar) (hblocked : e.blocked = [])
    (hhighest : ∀ (c : Context) (d : Nat), c.symbols = symbols →
      Script.highest d (e.script c) = d + e.peak symbols) : e.Climbs symbols where
  depth _ d hc := depth_script hsymbols h hgrammar hblocked hc d
  highest := hhighest

/-- The script of an expression with a value reaches its peak. -/
theorem climbs (hsymbols : symbols.Typed) {e : Expr} (h : e.HasValue symbols)
    (hgrammar : e.InGrammar) (hblocked : e.blocked = []) : e.Climbs symbols := by
  induction e using Expr.induction with
  | int _ _ | bool _ _ =>
      refine climbs_of hsymbols h hgrammar hblocked fun c d hc => ?_
      simp [script, Context.constant, peak]
  | str text pos =>
      refine climbs_of hsymbols h hgrammar hblocked fun c d hc => ?_
      rw [script, Context.string, Context.pooling, peak]
      cases c.strings.lookup text <;> simp
  | name id =>
      refine climbs_of hsymbols h hgrammar hblocked fun c d hc => ?_
      obtain ⟨ty, hty, _⟩ := h
      cases hty with
      | name hid => exact highest_load (hc ▸ hid) d
  | field base id _ => cases hblocked
  | assign target value _ ihvalue =>
      obtain ⟨hvalueBlocked, htargetBlocked⟩ := List.append_eq_nil_iff.mp hblocked
      obtain ⟨hlocation, _, hvalueGrammar⟩ := hgrammar.assign
      have hvalue := ihvalue h.assign.2 hvalueGrammar hvalueBlocked
      refine climbs_of hsymbols h hgrammar hblocked fun c d hc => ?_
      have haddress := highest_address hc h.assign.1 hlocation htargetBlocked (d + 1)
      have hpushed := depth_address hc h.assign.1 hlocation htargetBlocked (d + 1)
      simp [script, peak, hvalue.highest, hvalue.depth, hc, haddress, hpushed]
      omega
  | call callee args ih =>
      refine climbs_of hsymbols h hgrammar hblocked (highest_call callee fun arg harg => ?_)
      obtain ⟨ty, hty, _⟩ := h
      rw [blocked, blockedAll_eq_flatMap, List.flatMap_eq_nil_iff] at hblocked
      exact ih arg harg (hasValue_args hsymbols hty arg harg) (hgrammar.call arg harg)
        (hblocked arg harg)
  | unary op operand ih =>
      have hoperand := ih h.unary hgrammar.unary hblocked
      have hpeak := hoperand.one_le_peak
      refine climbs_of hsymbols h hgrammar hblocked fun c d hc => ?_
      simp [script, peak, hoperand.highest, hoperand.depth, hc]
      omega
  | binary op left right ihleft ihright =>
      obtain ⟨hleftBlocked, hrightBlocked⟩ := List.append_eq_nil_iff.mp hblocked
      have hleft := ihleft h.binary.1 hgrammar.binary.1 hleftBlocked
      have hright := ihright h.binary.2 hgrammar.binary.2 hrightBlocked
      have hleftPeak := hleft.one_le_peak
      have hrightPeak := hright.one_le_peak
      refine climbs_of hsymbols h hgrammar hblocked fun c d hc => ?_
      rw [script, peak]
      cases op.code with
      | strict alu text =>
          simp [hleft.highest, hleft.depth, hright.highest, hright.depth, hc]
          omega
      | skipping decisive text =>
          simp [hleft.highest, hleft.depth, hright.highest, hright.depth, hc]
          omega

end Expr

/-! ## Statements -/

structure Block.Climbs (symbols : Arena) (block : Block) : Prop where
  depth : ∀ (c : Context) (exit : Label) (d : Nat), c.symbols = symbols →
    Script.depth d (block.script c exit) = d
  highest : ∀ (c : Context) (exit : Label) (d : Nat), c.symbols = symbols →
    Script.highest d (block.script c exit) = d + block.peak symbols

namespace Stmt

variable {symbols : Arena}

structure Climbs (symbols : Arena) (stmt : Stmt) : Prop where
  depth : ∀ (c : Context) (exit : Label) (d : Nat), c.symbols = symbols →
    Script.depth d (stmt.script c exit) = d
  highest : ∀ (c : Context) (exit : Label) (d : Nat), c.symbols = symbols →
    Script.highest d (stmt.script c exit) = d + stmt.peak symbols

theorem climbs_scriptAll {stmts : List Stmt} (h : ∀ stmt ∈ stmts, stmt.Climbs symbols)
    (c : Context) (exit : Label) (d : Nat) (hc : c.symbols = symbols) :
    Script.depth d (Stmt.scriptAll c exit stmts) = d ∧
      Script.highest d (Stmt.scriptAll c exit stmts) = d + Stmt.peakAll symbols stmts := by
  induction stmts generalizing c with
  | nil => exact ⟨rfl, rfl⟩
  | cons stmt stmts ih =>
      obtain ⟨hstmt, hstmts⟩ := List.forall_mem_cons.mp h
      obtain ⟨hdepth, hhighest⟩ := ih hstmts (c.after (stmt.script c exit)) (by simpa using hc)
      rw [Stmt.scriptAll, Script.depth_append, Script.highest_append, hstmt.depth c exit d hc,
        hstmt.highest c exit d hc, hdepth, hhighest, Stmt.peakAll]
      exact ⟨rfl, by omega⟩

end Stmt

theorem Block.climbs_of {symbols : Arena} {block : Block}
    (h : ∀ stmt ∈ block.stmts, stmt.Climbs symbols) : block.Climbs symbols := by
  obtain ⟨decls, stmts⟩ := block
  exact ⟨fun c exit d hc => (Stmt.climbs_scriptAll h c exit d hc).1,
    fun c exit d hc => (Stmt.climbs_scriptAll h c exit d hc).2⟩

namespace Stmt

variable {symbols : Arena}

/-- Increments and decrements take the address off the stack before they look at the value. -/
theorem highest_step {op : AluOp} {text : String} {target : Expr} (h : target.HasType symbols .int)
    (hlocation : target.isLocation) (hblocked : target.blockedTarget = []) (c : Context) (d : Nat)
    (hc : c.symbols = symbols) : Script.highest d (c.step op text target) = d + 1 := by
  have haddress := Expr.highest_address hc ⟨_, h, rfl⟩ hlocation hblocked d
  have hpushed := Expr.depth_address hc ⟨_, h, rfl⟩ hlocation hblocked d
  obtain ⟨id, rfl⟩ := Expr.eq_name_of_blockedTarget hlocation hblocked
  cases h with
  | name hid =>
      rw [← hc] at hid
      simp [Context.step, Expr.script, haddress, hpushed, Expr.highest_load hid,
        Expr.depth_load hid]

theorem highest_branchIfFalse {cond : Expr} (h : cond.Climbs symbols) {c : Context}
    (hc : c.symbols = symbols) (target : Label) (d : Nat) :
    Script.highest d (c.branchIfFalse cond target) = d + cond.peak symbols ∧
      Script.depth d (c.branchIfFalse cond target) = d := by
  have hpeak := h.one_le_peak
  simp only [Context.branchIfFalse, Script.highest_append, Script.depth_append, h.highest c d hc,
    h.depth c d hc]
  exact ⟨by simp; omega, rfl⟩

/-- A statement keeps the depth, so the rest of what it has to show is the peak. -/
theorem climbs_of (hsymbols : symbols.Typed) {returnType : Ty}
    (hreturn : returnType.isReturnable) {stmt : Stmt}
    (h : ∀ node ∈ stmt.nodes, node.IsTyped symbols returnType) (hgrammar : stmt.InGrammar)
    (hblocked : stmt.blocked = [])
    (hhighest : ∀ (c : Context) (exit : Label) (d : Nat), c.symbols = symbols →
      Script.highest d (stmt.script c exit) = d + stmt.peak symbols) : stmt.Climbs symbols where
  depth c exit d hc := (lowers hsymbols hreturn h hgrammar).depth c exit d hc hblocked
  highest := hhighest

theorem body_climbs {returnType : Ty} {stmt : Stmt} {body : Block} (hmem : body ∈ stmt.bodies)
    (h : ∀ node ∈ stmt.nodes, node.IsTyped symbols returnType) (hgrammar : stmt.InGrammar)
    (hblocked : body.blocked = [])
    (ih : ∀ inner ∈ body.stmts, (∀ node ∈ inner.nodes, node.IsTyped symbols returnType) →
      inner.InGrammar → inner.blocked = [] → inner.Climbs symbols) : body.Climbs symbols := by
  rw [Block.blocked_eq, List.flatMap_eq_nil_iff] at hblocked
  refine Block.climbs_of fun inner hinner => ?_
  have hsubset := nodes_subset_of_body body hmem hinner
  exact ih inner hinner (fun node hnode => h node (hsubset hnode))
    (fun node hnode => hgrammar node (hsubset hnode)) (hblocked inner hinner)

/-- The script of a well-typed statement reaches its peak. -/
theorem climbs (hsymbols : symbols.Typed) {returnType : Ty} (hreturn : returnType.isReturnable)
    {stmt : Stmt} (h : ∀ node ∈ stmt.nodes, node.IsTyped symbols returnType)
    (hgrammar : stmt.InGrammar) (hblocked : stmt.blocked = []) : stmt.Climbs symbols := by
  induction stmt using Stmt.induction with
  | assign target value =>
      have hassign := hgrammar.exprs (e := .assign target value) (by simp [exprs])
      cases h _ (self_mem_nodes _) with
      | assign hty =>
          have hvalue := hasValue_of_assign hsymbols hassign.assign.1 hty
          have hclimbs := Expr.climbs hsymbols hvalue hassign hblocked
          have hpeak := hclimbs.one_le_peak
          refine climbs_of hsymbols hreturn h hgrammar hblocked fun c exit d hc => ?_
          simp [script, peak, hclimbs.highest, hclimbs.depth, hc]
          omega
  | increment target =>
      refine climbs_of hsymbols hreturn h hgrammar hblocked fun c exit d hc => ?_
      cases h _ (self_mem_nodes _) with
      | increment hty =>
          rw [script]
          exact highest_step hty hgrammar.isFormed hblocked c d hc
  | decrement target =>
      refine climbs_of hsymbols hreturn h hgrammar hblocked fun c exit d hc => ?_
      cases h _ (self_mem_nodes _) with
      | decrement hty =>
          rw [script]
          exact highest_step hty hgrammar.isFormed hblocked c d hc
  | read target =>
      have hlocation : target.isLocation := hgrammar.isFormed
      refine climbs_of hsymbols hreturn h hgrammar hblocked fun c exit d hc => ?_
      cases h _ (self_mem_nodes _) with
      | read hty hreadable =>
          have hvalue := isValue_of_isReadable hsymbols hlocation hty hreadable
          simp [script, peak, Expr.highest_address hc ⟨_, hty, hvalue⟩ hlocation hblocked,
            Expr.depth_address hc ⟨_, hty, hvalue⟩ hlocation hblocked]
  | write value =>
      have hvalue := hgrammar.exprs (e := value) (by simp [exprs])
      cases h _ (self_mem_nodes _) with
      | write hty hwritable =>
          have hclimbs := Expr.climbs hsymbols (hasValue_of_isWritable hsymbols hty hwritable)
            hvalue hblocked
          have hpeak := hclimbs.one_le_peak
          refine climbs_of hsymbols hreturn h hgrammar hblocked fun c exit d hc => ?_
          simp [script, peak, hclimbs.highest, hclimbs.depth, hc]
          omega
  | ifThen cond body ih =>
      have hcond := hgrammar.exprs (e := cond) (by simp [exprs])
      obtain ⟨hcondBlocked, hbodyBlocked⟩ := List.append_eq_nil_iff.mp hblocked
      cases h _ (self_mem_nodes _) with
      | ifThen hty =>
          have hcond := Expr.climbs hsymbols ⟨_, hty, rfl⟩ hcond hcondBlocked
          have hbody := body_climbs (by simp [bodies]) h hgrammar hbodyBlocked ih
          refine climbs_of hsymbols hreturn h hgrammar hblocked fun c exit d hc => ?_
          simp [script, peak, highest_branchIfFalse hcond, hbody.highest, hbody.depth, hc]
  | whileLoop cond body ih =>
      have hcond := hgrammar.exprs (e := cond) (by simp [exprs])
      obtain ⟨hcondBlocked, hbodyBlocked⟩ := List.append_eq_nil_iff.mp hblocked
      cases h _ (self_mem_nodes _) with
      | whileLoop hty =>
          have hcond := Expr.climbs hsymbols ⟨_, hty, rfl⟩ hcond hcondBlocked
          have hbody := body_climbs (by simp [bodies]) h hgrammar hbodyBlocked ih
          refine climbs_of hsymbols hreturn h hgrammar hblocked fun c exit d hc => ?_
          simp [script, peak, highest_branchIfFalse hcond, hbody.highest, hbody.depth, hc]
  | repeatLoop count body ih =>
      have hcount := hgrammar.exprs (e := count) (by simp [exprs])
      obtain ⟨hcountBlocked, hbodyBlocked⟩ := List.append_eq_nil_iff.mp hblocked
      cases h _ (self_mem_nodes _) with
      | repeatLoop hty =>
          have hcount := Expr.climbs hsymbols ⟨_, hty, rfl⟩ hcount hcountBlocked
          have hbody := body_climbs (by simp [bodies]) h hgrammar hbodyBlocked ih
          refine climbs_of hsymbols hreturn h hgrammar hblocked fun c exit d hc => ?_
          -- the count stays on the stack below the body
          simp [script, peak, hcount.highest, hcount.depth, hbody.highest, hbody.depth, hc]
          omega
  | ifElse cond thenBody elseBody ihthen ihelse =>
      have hcond := hgrammar.exprs (e := cond) (by simp [exprs])
      obtain ⟨hfirst, helseBlocked⟩ := List.append_eq_nil_iff.mp hblocked
      obtain ⟨hcondBlocked, hthenBlocked⟩ := List.append_eq_nil_iff.mp hfirst
      cases h _ (self_mem_nodes _) with
      | ifElse hty =>
          have hcond := Expr.climbs hsymbols ⟨_, hty, rfl⟩ hcond hcondBlocked
          have hthen := body_climbs (by simp [bodies]) h hgrammar hthenBlocked ihthen
          have helse := body_climbs (by simp [bodies]) h hgrammar helseBlocked ihelse
          refine climbs_of hsymbols hreturn h hgrammar hblocked fun c exit d hc => ?_
          simp [script, peak, highest_branchIfFalse hcond, hthen.highest, hthen.depth,
            helse.highest, helse.depth, hc]
  | call callee args =>
      have hcall := hgrammar.exprs (e := .call callee args) (by simp [exprs])
      cases h _ (self_mem_nodes _) with
      | call hty =>
          refine climbs_of hsymbols hreturn h hgrammar hblocked fun c exit d hc => ?_
          rw [blocked, Expr.blockedAll_eq_flatMap, List.flatMap_eq_nil_iff] at hblocked
          have hargs : ∀ arg ∈ args, arg.Climbs symbols := fun arg harg =>
            Expr.climbs hsymbols (Expr.hasValue_args hsymbols hty arg harg) (hcall.call arg harg)
              (hblocked arg harg)
          have hhighest := Expr.highest_call callee hargs c d hc
          have hresult := Script.depth_le_highest d ((Expr.call callee args).script c)
          rw [hhighest] at hresult
          rw [script, peak]
          cases c.yields callee with
          | false => simp [hhighest]
          | true =>
              simp [hhighest]
              omega
  | ret value? pos =>
      cases value? with
      | none =>
          refine climbs_of hsymbols hreturn h hgrammar hblocked fun c exit d hc => ?_
          simp [script, peak]
      | some value =>
          have hvalue := hgrammar.exprs (e := value) (by simp [exprs])
          cases h _ (self_mem_nodes _) with
          | retValue hty hvoid =>
              have hclimbs := Expr.climbs hsymbols
                ⟨_, hty, Ty.isValue_of_isReturnable hreturn hvoid⟩ hvalue hblocked
              have hpeak := hclimbs.one_le_peak
              refine climbs_of hsymbols hreturn h hgrammar hblocked fun c exit d hc => ?_
              simp [script, peak, hclimbs.highest, hclimbs.depth, hc]
              omega

end Stmt

theorem Block.climbs {symbols : Arena} (hsymbols : symbols.Typed) {returnType : Ty}
    (hreturn : returnType.isReturnable) {block : Block} (h : block.WellTyped symbols returnType)
    (hgrammar : block.InGrammar) (hblocked : block.blocked = []) : block.Climbs symbols := by
  rw [WellTyped, Block.nodes_eq] at h
  rw [Block.blocked_eq, List.flatMap_eq_nil_iff] at hblocked
  exact Block.climbs_of fun stmt hstmt => Stmt.climbs hsymbols hreturn
    (fun node hnode => h node (List.mem_flatMap.mpr ⟨stmt, hstmt, hnode⟩)) (hgrammar stmt hstmt)
    (hblocked stmt hstmt)

/-! ## Functions and programs -/

namespace Context

@[simp] theorem highest_prologue (c : Context) (name : String) (info : FunctionInfo) (d : Nat) :
    Script.highest d (c.prologue name info) = d := by
  unfold prologue storeWord
  split <;> split <;> simp

@[simp] theorem highest_epilogue (c : Context) (exit : Label) (name : String)
    (info : FunctionInfo) (d : Nat) : Script.highest d (c.epilogue exit name info) = d := by
  unfold epilogue
  split <;> simp

@[simp] theorem highest_exiting (c : Context) (name : String) (d : Nat) :
    Script.highest d (c.exiting name) = d := by
  unfold exiting
  split <;> simp

end Context

/-- Only the body of a function pushes operands. -/
theorem FnDecl.highest_script {symbols : Arena} {fn : FnDecl} (h : fn.body.Climbs symbols)
    {c : Context} (hc : c.symbols = symbols) (d : Nat) :
    Script.highest d (fn.script c) = d + fn.body.peak symbols ∧
      Script.depth d (fn.script c) = d := by
  simp [script, bodyScript, bodyContext, h.highest, h.depth, hc]

theorem getD_max?_cons (n : Nat) (peaks : List Nat) :
    (n :: peaks).max?.getD 0 = max n (peaks.max?.getD 0) := by
  rw [List.max?_cons]
  cases peaks.max? <;> simp

/-- Every function starts where the one before has left the stack. -/
theorem Decl.highest_scriptAll {symbols : Arena} {decls : List Decl}
    (h : ∀ fn, .fn fn ∈ decls → fn.body.Climbs symbols) {c : Context} (hc : c.symbols = symbols) :
    Script.highest 0 (scriptAll c decls) =
      ((Program.mk decls).functions.map fun fn => fn.body.peak symbols).max?.getD 0 := by
  induction decls generalizing c with
  | nil => rfl
  | cons decl decls ih =>
      have hrest := ih (fun fn hfn => h fn (by simp [hfn]))
        (show (c.after (decl.script c)).symbols = symbols by simpa using hc)
      cases decl with
      | var decl => simpa [scriptAll, script, Program.functions] using hrest
      | struct decl => simpa [scriptAll, script, Program.functions] using hrest
      | fn fn =>
          obtain ⟨hhighest, hdepth⟩ := FnDecl.highest_script (h fn (by simp)) hc 0
          have hfunctions : (Program.mk (.fn fn :: decls)).functions =
            fn :: (Program.mk decls).functions := rfl
          rw [hfunctions, List.map_cons, getD_max?_cons, ← hrest, scriptAll, script,
            Script.highest_append, hhighest, hdepth, Nat.zero_add]

theorem Resolved.Emits.maxDepth {resolved : Resolved} {assembly : Assembly}
    (h : resolved.Emits assembly) : assembly.maxDepth =
      (resolved.program.functions.map
        fun fn => fn.body.peak resolved.context.symbols).max?.getD 0 := by
  have hclimbs : ∀ fn, .fn fn ∈ resolved.program.decls →
      fn.body.Climbs resolved.context.symbols := by
    intro fn hfn
    have hfn := Program.mem_functions.mpr hfn
    exact Block.climbs h.clean.complete.typed fn.returnType.isReturnable_toTy (h.clean.typed fn hfn)
      (h.clean.grammar fn hfn) (List.flatMap_eq_nil_iff.mp h.blocked fn hfn)
  rw [h.eq, code, Generator.assembly, Generator.maxDepth_perform _ (Nat.le_refl _)]
  exact (Nat.zero_max _).trans (Decl.highest_scriptAll hclimbs rfl)

namespace Program

/-- The depth that an accepted program reports is the largest peak of its function bodies. -/
theorem compile_maxDepth {program linked : Program} {options : Options} {assembly : Assembly}
    (h : program.compile options = .ok (linked, .ok assembly)) :
    ∃ resolved, program.analyze { options } = .done resolved [] ∧ linked = resolved.program ∧
      (linked.functions.map fun fn => fn.body.peak resolved.context.symbols).max? =
        some assembly.maxDepth := by
  obtain ⟨resolved, hanalyze, rfl, -, hemits⟩ := emits_of_compile h
  refine ⟨resolved, hanalyze, rfl, ?_⟩
  obtain ⟨entry, hentry, -⟩ := exists_entry (resolve_of_analyze hanalyze)
  have hne : resolved.program.functions.map (fun fn => fn.body.peak resolved.context.symbols) ≠
      [] := List.ne_nil_of_mem (List.mem_map_of_mem (mem_functions.mpr hentry))
  obtain ⟨most, hmost⟩ := Option.isSome_iff_exists.mp (List.isSome_max?_iff.mpr hne)
  rw [hemits.maxDepth, hmost, Option.getD_some]

/-- A loop around a call whose second argument is computed while the first one waits. -/
def waiting : Program where
  decls := [
    .fn ⟨.int, ⟨"pick", ⟨1, 5⟩, none⟩,
      [⟨.int, ⟨"a", ⟨1, 14⟩, none⟩⟩, ⟨.int, ⟨"b", ⟨1, 21⟩, none⟩⟩],
      ⟨[], [.ret (some (.name ⟨"b", ⟨2, 10⟩, none⟩)) ⟨2, 3⟩]⟩⟩,
    .fn ⟨.void, ⟨"main", ⟨4, 6⟩, none⟩, [], ⟨[⟨.int, ⟨"x", ⟨5, 7⟩, none⟩⟩], [
      .repeatLoop (.name ⟨"x", ⟨6, 10⟩, none⟩) ⟨[], [
        .assign (.name ⟨"x", ⟨7, 5⟩, none⟩) (.call ⟨"pick", ⟨7, 9⟩, none⟩ [
          .name ⟨"x", ⟨7, 14⟩, none⟩,
          .binary .sub (.int 1 ⟨7, 17⟩)
            (.binary .mul (.int 2 ⟨7, 22⟩) (.name ⟨"x", ⟨7, 26⟩, none⟩))])]⟩]⟩⟩]

/-- The count of the loop, the first argument, both constants and the variable are on the stack at
the same time. -/
theorem waiting_maxDepth : ∃ linked resolved,
    waiting.compile {} = .ok (linked, .ok (waiting.code {})) ∧
      waiting.analyze {} = .done resolved [] ∧
      linked.functions.map (fun fn => fn.body.peak resolved.context.symbols) = [1, 5] ∧
      (waiting.code {}).maxDepth = 5 := by
  have hquiet : waiting.analyze {} = .done (waiting.linked {}) [] :=
    analyze_of_check sound_empty (by decide) (by decide) rfl
  have hcompile : waiting.compile {} = .ok ((waiting.linked {}).program, .ok (waiting.code {})) :=
    compile_eq_code (by decide) hquiet rfl
  obtain ⟨resolved, hanalyze, -, hmost⟩ := compile_maxDepth hcompile
  cases hquiet.symm.trans hanalyze
  have hpeaks : (waiting.linked {}).program.functions.map
      (fun fn => fn.body.peak (waiting.linked {}).context.symbols) = [1, 5] := by decide +kernel
  rw [hpeaks] at hmost
  exact ⟨_, _, hcompile, hanalyze, hpeaks, (Option.some.inj hmost).symm⟩

end Program

end StackMips
