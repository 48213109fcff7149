import StackMips.Proofs.Lowering.Pool
import StackMips.Proofs.Lowering.Stmt

/-!
# Structured code

Generated code is put together from straight pieces, calls, texts, branches and labels.  Labels are
taken from the counter for one statement or expression, which defines each of them once and which
alone branches to them.  This module says so as a relation between scripts and what they start from,
and shows that the scripts of well-typed trees are in it.  What holds of all generated code is then
shown by induction over the relation.
-/

namespace StackMips

open Mips

namespace Mips.Operation

def branch? : Operation → Option Label
  | .b target | .beq _ _ target | .ble _ _ target => some target
  | _ => none

/-- The datum that an operation names without a base register. -/
def datum? : Operation → Option Label
  | .la _ (.label name) | .lw _ (.label name) => some name
  | _ => none

/-- Whether an operation leaves `$sp` alone and stays in the function.  A call does neither: its
callee removes the arguments. -/
def keepsStack : Operation → Bool
  | .li dst _ | .la dst _ | .lw dst _ | .move dst _ | .alu _ dst _ _ | .neg dst _ => dst != .sp
  | .jal _ | .jr _ | .raw _ _ => false
  | .sw _ _ | .b _ | .beq _ _ _ | .ble _ _ _ | .syscall | .globl _ | .align _ | .space _
  | .asciiz _ => true

theorem keepsStack_of_branch? {operation : Operation} {label : Label}
    (h : operation.branch? = some label) : operation.keepsStack := by
  cases operation <;> first | rfl | cases h

theorem datum?_of_branch? {operation : Operation} {label : Label}
    (h : operation.branch? = some label) : operation.datum? = none := by
  cases operation <;> first | rfl | cases h

end Mips.Operation

/-! ## Straight code -/

/-- A step at a depth of the operand stack that is neither a label, nor a branch, nor a call, and
that names only data that are stored. -/
def Action.IsStraight (stored : Label → Prop) (depth : Nat) : Action → Prop
  | .emit (.op instr) => instr.operation.keepsStack ∧ instr.operation.branch? = none ∧
    ∀ label ∈ instr.operation.datum?, stored label
  | .emit (.comment _) | .push _ => True
  | .pop register => register ≠ .sp ∧ 0 < depth
  | _ => False

def Script.IsStraight (stored : Label → Prop) : Nat → Script → Prop
  | _, [] => True
  | depth, action :: script =>
    action.IsStraight stored depth ∧ IsStraight stored (action.depth depth) script

theorem Action.IsStraight.context {stored : Label → Prop} {depth : Nat} {action : Action}
    (h : action.IsStraight stored depth) (c : Context) : action.context c = c := by
  cases action with
  | emit _ | push _ | pop _ | release _ => rfl
  | mint | pool _ _ => cases h

namespace Script.IsStraight

variable {stored : Label → Prop} {depth : Nat}

theorem note (c : Context) (text : String) : (c.note text).IsStraight stored depth := by
  unfold Context.note
  split <;> simp [IsStraight, Action.IsStraight]

theorem load {c : Context} {id : Ident}
    (h : ∀ label, c.symbols.location? id = some (.global label) → stored label) :
    (c.load id).IsStraight stored depth := by
  unfold Context.load
  split
  · simp [IsStraight, Action.IsStraight, Context.opWith, Operation.keepsStack, Operation.branch?,
      Operation.datum?]
  · next label hlocation =>
      simp [IsStraight, Action.IsStraight, Context.opWith, Operation.keepsStack,
        Operation.branch?, Operation.datum?, h label hlocation]
  · trivial

theorem loadAddress {c : Context} {id : Ident}
    (h : ∀ label, c.symbols.location? id = some (.global label) → stored label) :
    (c.loadAddress id).IsStraight stored depth := by
  unfold Context.loadAddress
  split
  · simp [IsStraight, Action.IsStraight, Context.opWith, Operation.keepsStack, Operation.branch?,
      Operation.datum?]
  · next label hlocation =>
      simp [IsStraight, Action.IsStraight, Action.op, Operation.keepsStack, Operation.branch?,
        Operation.datum?, h label hlocation]
  · trivial

end Script.IsStraight

/-! ## Labels from the counter -/

theorem Script.depth_mints (d n : Nat) : Script.depth d (List.replicate n .mint) = d := by
  induction n with
  | zero => rfl
  | succ n ih => simpa [List.replicate_succ] using ih

theorem Script.lines_mints (n : Nat) : Script.lines (List.replicate n .mint) = [] := by
  simp [Script.lines, Action.lines]

theorem Context.after_mints (c : Context) (n : Nat) :
    c.after (List.replicate n .mint) = c.minted n := by
  induction n generalizing c with
  | zero => rfl
  | succ n ih => simp [List.replicate_succ, ih, Nat.add_comm]

/-! ## Structured scripts -/

/-- Labels, each with the number of operands on the stack where it is reached. -/
abbrev Marks := List (Label × Nat)

/-- How scripts are put together.  The relation is between the labels that may be branched to, the
context and the depth before the script, the script, and the depth after it; last are those of the
labels that the script itself defines, besides the ones that it takes from the counter.  Functions
are called with a number of words, and the function may be left at any depth. -/
inductive Script.Structured (calls : Label → Nat → Prop) (stored : Label → Prop) (exit : Label) :
    Marks → Context → Nat → Script → Nat → Marks → Prop
  | nil {targets c d} : Structured calls stored exit targets c d [] d []
  | append {targets c d d' d'' a b marks marks'}
      (ha : Structured calls stored exit targets c d a d' marks)
      (hb : Structured calls stored exit targets (c.after a) d' b d'' marks') :
      Structured calls stored exit targets c d (a ++ b) d'' (marks ++ marks')
  | step {targets c d} {action : Action} (h : action.IsStraight stored d) :
      Structured calls stored exit targets c d [action] (action.depth d) []
  | call {targets c d label words} (h : calls label words) :
      Structured calls stored exit targets c (d + words)
        [.op (.jal label), .release words] d []
  | text {targets d} (c : Context) (text comment : String) :
      Structured calls stored exit targets c d
        (c.pooling text ++ [c.opWith (.la .t0 (.label (c.stringLabel text))) comment]) d []
  | branch {targets c d label} {operation : Operation} (h : operation.branch? = some label)
      (hlabel : (label, d) ∈ targets) :
      Structured calls stored exit targets c d [.op operation] d []
  | leave {targets c d} : Structured calls stored exit targets c d [.op (.b exit)] d []
  | mark {targets c d} (label : Label) :
      Structured calls stored exit targets c d [.emit (.label label none)] d [(label, d)]
  /-- Labels are taken from the counter, and all of them are defined. -/
  | scope {targets c d d' script marks inner} (own : Marks)
      (hown : own.map Prod.fst = (List.range' c.labels own.length).map Context.synthetic)
      (hscript : Structured calls stored exit (own ++ targets) (c.minted own.length) d script d'
        inner)
      (hinner : inner.Perm (own ++ marks)) :
      Structured calls stored exit targets c d (List.replicate own.length .mint ++ script) d' marks

namespace Script.Structured

variable {calls : Label → Nat → Prop} {stored : Label → Prop} {exit : Label} {targets : Marks}
  {c : Context} {d d' : Nat} {a b : Script} {marks : Marks}

theorem cons {action : Action} {d'' : Nat} {marks' : Marks}
    (ha : Structured calls stored exit targets c d [action] d' marks)
    (hb : Structured calls stored exit targets (action.context c) d' b d'' marks') :
    Structured calls stored exit targets c d (action :: b) d'' (marks ++ marks') :=
  .append ha hb

theorem straight (h : a.IsStraight stored d) :
    Structured calls stored exit targets c d a (a.depth d) [] := by
  induction a generalizing d with
  | nil => exact .nil
  | cons action a ih =>
      refine .append (.step h.1) ?_
      rw [Context.after_cons, h.1.context]
      exact ih h.2

theorem push (register : Register) :
    Structured calls stored exit targets c d [.push register] (d + 1) [] :=
  .step trivial

theorem pop (register : Register) (h : register ≠ .sp := by decide) :
    Structured calls stored exit targets c (d + 1) [.pop register] d [] :=
  .step ⟨h, Nat.succ_pos d⟩

theorem op {operation : Operation} {comment : Option String} (hkeeps : operation.keepsStack)
    (hbranch : operation.branch? = none) (hdatum : operation.datum? = none) :
    Structured calls stored exit targets c d [.emit (.op { operation, comment })] d [] :=
  .step ⟨hkeeps, hbranch, by simp [hdatum]⟩

theorem note_append {c' : Context} {text : String}
    (hb : Structured calls stored exit targets c d b d' marks) :
    Structured calls stored exit targets c d (c'.note text ++ b) d' marks := by
  have hnote : Structured calls stored exit targets c d (c'.note text) d [] := by
    simpa using straight (.note c' text)
  exact .append hnote (by simpa using hb)

theorem depth (h : Structured calls stored exit targets c d a d' marks) : a.depth d = d' := by
  induction h with
  | nil | step _ | branch _ _ | leave | mark _ => rfl
  | append _ _ iha ihb => rw [depth_append, iha, ihb]
  | call _ => simp
  | text c text _ =>
      unfold Context.pooling
      split <;> rfl
  | scope own _ _ _ ih => rw [depth_append, depth_mints, ih]

end Script.Structured

/-! ## Expressions -/

namespace Expr

/-- What a node refers to can be called or is stored. -/
def Refers (calls : Label → Nat → Prop) (stored : Label → Prop) (base : Context) : Expr → Prop
  | .name id => ∀ ty, base.symbols.ty? id = some ty → ty.isStorable →
    ∀ label, base.symbols.location? id = some (.global label) → stored label
  | .call callee args => calls (base.functionLabel callee.name) args.length
  | _ => True

end Expr

structure Context.Like (c base : Context) : Prop where
  symbols : c.symbols = base.symbols
  options : c.options = base.options

namespace Context.Like

variable {c base : Context} (h : c.Like base)
include h

theorem after (script : Script) : (c.after script).Like base := by
  constructor <;> simp [h.symbols, h.options]

theorem minted (n : Nat) : (c.minted n).Like base := by
  constructor <;> simp [h.symbols, h.options]

theorem functionLabel (name : String) : c.functionLabel name = base.functionLabel name := by
  simp [Context.functionLabel, Context.isEntryPoint, h.options]

end Context.Like

namespace Expr

open Script

variable {calls : Label → Nat → Prop} {stored : Label → Prop} {exit : Label} {base : Context}

theorem stored_of_hasValue (hsymbols : base.symbols.Typed) {id : Ident}
    (h : (name id).HasValue base.symbols) (hrefers : (name id).Refers calls stored base)
    {c : Context} (hc : c.Like base) :
    ∀ label, c.symbols.location? id = some (.global label) → stored label := by
  obtain ⟨ty, hty, hvalue⟩ := h
  cases hty with
  | name hid =>
      have hstring := (hsymbols.of_ty? hid).2.2
      rw [hc.symbols]
      exact hrefers ty hid (by simpa [Ty.isValue, hstring] using hvalue)

/-- Taking the address of a storage location pushes one word. -/
theorem structured_address (hsymbols : base.symbols.Typed) {target : Expr}
    (h : target.HasValue base.symbols) (hlocation : target.isLocation)
    (hblocked : target.blockedTarget = []) (hrefers : target.Refers calls stored base)
    (targets : Marks) {c c' : Context} (hc : c.Like base) (d : Nat) :
    Structured calls stored exit targets c' d (c.address target) (d + 1) [] := by
  rw [← depth_address hc.symbols h hlocation hblocked d]
  obtain ⟨id, rfl⟩ := eq_name_of_blockedTarget hlocation hblocked
  exact .straight (.loadAddress (stored_of_hasValue hsymbols h hrefers hc))

theorem structured_scriptAll {args : List Expr} {targets : Marks}
    (h : ∀ arg ∈ args, ∀ (c : Context) (d : Nat), c.Like base →
      Structured calls stored exit targets c d (arg.script c) (d + 1) [])
    {c : Context} (hc : c.Like base) (d : Nat) :
    Structured calls stored exit targets c d (Expr.scriptAll c args) (d + args.length) [] := by
  induction args generalizing c d with
  | nil => exact .nil
  | cons arg args ih =>
      rw [Expr.scriptAll, List.length_cons, Nat.add_comm args.length, ← Nat.add_assoc]
      exact .append (h arg (by simp) c d hc)
        (ih (fun other hother => h other (by simp [hother])) (hc.after _) (d + 1))

/-- A call pushes its arguments, gives them up, and pushes what the callee returns. -/
theorem structured_call_of {callee : Ident} {args : List Expr} {ty : Ty} {targets : Marks}
    (h : (call callee args).HasType base.symbols ty)
    (hrefers : (call callee args).Refers calls stored base)
    (hargs : ∀ arg ∈ args, ∀ (c : Context) (d : Nat), c.Like base →
      Structured calls stored exit targets c d (arg.script c) (d + 1) [])
    {c : Context} (hc : c.Like base) (d : Nat) :
    Structured calls stored exit targets c d ((call callee args).script c)
      (if ty.isVoid then d else d + 1) [] := by
  have hcall : calls (c.functionLabel callee.name) args.length := by
    rw [hc.functionLabel]
    exact hrefers
  have hcode := Structured.append (structured_scriptAll hargs hc d) (.call (d := d) hcall)
  rw [script, yields_eq hc.symbols h, List.append_assoc, List.append_assoc, ← List.append_assoc
    (Expr.scriptAll c args)]
  refine .note_append (.append hcode ?_)
  cases ty.isVoid with
  | true => exact .nil
  | false => exact .push .v0

/-- The code of an expression that has a value is structured and pushes one word. -/
theorem structured (hsymbols : base.symbols.Typed) {e : Expr} (h : e.HasValue base.symbols)
    (hgrammar : e.InGrammar) (hblocked : e.blocked = [])
    (hrefers : ∀ node ∈ e.nodes, node.Refers calls stored base) (targets : Marks) {c : Context}
    (hc : c.Like base) (d : Nat) :
    Structured calls stored exit targets c d (e.script c) (d + 1) [] := by
  induction e using Expr.induction generalizing targets c d with
  | int _ _ | bool _ _ =>
      exact .cons (.op rfl rfl rfl) (.push .t0)
  | str text pos =>
      rw [script, Context.string, ← List.singleton_append, ← List.append_assoc]
      exact .append (.text c text _) (.push .t0)
  | name id =>
      have hload := stored_of_hasValue hsymbols h (hrefers _ (by simp [nodes])) hc
      obtain ⟨ty, hty, _⟩ := h
      cases hty with
      | name hid =>
          rw [script, ← depth_load (hc.symbols ▸ hid)]
          exact .straight (.load hload)
  | field base id _ => cases hblocked
  | assign target value _ ihvalue =>
      obtain ⟨hvalueBlocked, htargetBlocked⟩ := List.append_eq_nil_iff.mp hblocked
      obtain ⟨hlocation, _, hvalueGrammar⟩ := hgrammar.assign
      have hvalue := ihvalue h.assign.2 hvalueGrammar hvalueBlocked
        (fun node hnode => hrefers node (by simp [nodes, hnode])) targets hc d
      have htarget : Structured calls stored exit targets (c.after (value.script c)) (d + 1)
          (c.address target) (d + 1 + 1) [] :=
        structured_address hsymbols h.assign.1 hlocation htargetBlocked
          (hrefers target (by simp [nodes, self_mem_nodes])) targets hc (d + 1)
      simp only [script, List.append_assoc]
      exact .note_append (.append hvalue (.append htarget (.cons (.pop .t0) (.cons (.pop .t1)
        (.cons (.op rfl rfl rfl) (.push .t1))))))
  | call callee args ih =>
      obtain ⟨ty, hty, hvalue⟩ := h
      rw [blocked, blockedAll_eq_flatMap, List.flatMap_eq_nil_iff] at hblocked
      have hargs : ∀ arg ∈ args, ∀ (c : Context) (d : Nat), c.Like base →
          Structured calls stored exit targets c d (arg.script c) (d + 1) [] :=
        fun arg harg c d hc => ih arg harg (hasValue_args hsymbols hty arg harg)
          (hgrammar.call arg harg) (hblocked arg harg)
          (fun node hnode => hrefers node (nodes_subset_call harg hnode)) targets hc d
      simpa [Ty.isVoid_of_isValue hvalue] using
        structured_call_of hty (hrefers _ (self_mem_nodes _)) hargs hc d
  | unary op operand ih =>
      have hoperand := ih h.unary hgrammar.unary hblocked
        (fun node hnode => hrefers node (by simp [nodes, hnode])) targets hc d
      have hop : Structured calls stored exit targets (c.after (operand.script c)) d
          [.op op.operation] d [] := by
        cases op <;> exact .op rfl rfl rfl
      rw [script, List.append_assoc]
      exact .note_append (.append hoperand (.cons (.pop .t0) (.cons hop (.push .t0))))
  | binary op left right ihleft ihright =>
      obtain ⟨hleftBlocked, hrightBlocked⟩ := List.append_eq_nil_iff.mp hblocked
      have hleft := fun {c : Context} (targets : Marks) (hc : c.Like base) (d : Nat) =>
        ihleft h.binary.1 hgrammar.binary.1 hleftBlocked
          (fun node hnode => hrefers node (by simp [nodes, hnode])) targets hc d
      have hright := fun {c : Context} (targets : Marks) (hc : c.Like base) (d : Nat) =>
        ihright h.binary.2 hgrammar.binary.2 hrightBlocked
          (fun node hnode => hrefers node (by simp [nodes, hnode])) targets hc d
      rw [script]
      cases op.code with
      | strict alu text =>
          simp only [List.append_assoc]
          exact .note_append (.append (hleft targets hc d) (.append
            (hright targets (hc.after _) (d + 1)) (.cons (.pop .t1) (.cons (.pop .t0)
              (.cons (.op rfl rfl rfl) (.push .t0))))))
      | skipping decisive text =>
          have hc := hc.minted 1
          simp only [List.append_assoc, List.cons_append, List.nil_append]
          exact .scope [(Context.synthetic c.labels, d)] rfl (.note_append (.append
            (hleft _ hc d) (.cons (.pop .t0) (.cons (.branch rfl (by simp)) (.append
              (hright _ (hc.after _) d) (.cons (.pop .t0) (.cons (.mark _)
                (.push .t0)))))))) (.refl _)

/-- The code of a call is structured, also if the callee returns nothing. -/
theorem structured_call (hsymbols : base.symbols.Typed) {callee : Ident} {args : List Expr}
    {ty : Ty} (h : (call callee args).HasType base.symbols ty)
    (hgrammar : (call callee args).InGrammar) (hblocked : (call callee args).blocked = [])
    (hrefers : ∀ node ∈ (call callee args).nodes, node.Refers calls stored base) (targets : Marks)
    {c : Context} (hc : c.Like base) (d : Nat) :
    Structured calls stored exit targets c d ((call callee args).script c)
      (if ty.isVoid then d else d + 1) [] := by
  rw [blocked, blockedAll_eq_flatMap, List.flatMap_eq_nil_iff] at hblocked
  exact structured_call_of h (hrefers _ (self_mem_nodes _)) (fun arg harg c d hc => structured
    hsymbols (hasValue_args hsymbols h arg harg) (hgrammar.call arg harg) (hblocked arg harg)
    (fun node hnode => hrefers node (nodes_subset_call harg hnode)) targets hc d) hc d

end Expr

/-! ## Statements -/

namespace Stmt

open Script

/-- The statement is well typed and formed, accesses no field, and what it refers to is there. -/
structure Admissible (calls : Label → Nat → Prop) (stored : Label → Prop) (base : Context)
    (returnType : Ty) (stmt : Stmt) : Prop where
  typed : ∀ node ∈ stmt.nodes, node.IsTyped base.symbols returnType
  grammar : stmt.InGrammar
  plain : ∀ e ∈ stmt.allExprs, e.hasField = false
  refers : ∀ e ∈ stmt.allExprs, ∀ node ∈ e.nodes, node.Refers calls stored base

variable {calls : Label → Nat → Prop} {stored : Label → Prop} {exit : Label} {base : Context}
  {returnType : Ty} {stmt : Stmt}

namespace Admissible

theorem inner (h : stmt.Admissible calls stored base returnType) (body : Block)
    (hbody : body ∈ stmt.bodies) :
    ∀ inner ∈ body.stmts, inner.Admissible calls stored base returnType := fun _ hinner =>
  { typed := fun node hnode => h.typed node (nodes_subset_of_body body hbody hinner hnode)
    grammar := fun node hnode => h.grammar node (nodes_subset_of_body body hbody hinner hnode)
    plain := fun e he => h.plain e (allExprs_subset_of_body body hbody hinner he)
    refers := fun e he => h.refers e (allExprs_subset_of_body body hbody hinner he) }

variable (h : stmt.Admissible calls stored base returnType) (hsymbols : base.symbols.Typed)
include h hsymbols

theorem value {e : Expr} (he : e ∈ stmt.exprs) (hvalue : e.HasValue base.symbols) (targets : Marks)
    {c : Context} (hc : c.Like base) (d : Nat) :
    Structured calls stored exit targets c d (e.script c) (d + 1) [] :=
  have hgrammar := h.grammar.exprs he
  have hall := stmt.exprs_subset he
  Expr.structured hsymbols hvalue hgrammar ((Expr.blocked_eq_nil_iff hgrammar).mpr (h.plain e hall))
    (h.refers e hall) targets hc d

theorem address {target : Expr} (he : target ∈ stmt.exprs) (hlocation : target.isLocation)
    (hvalue : target.HasValue base.symbols) (targets : Marks) {c : Context} (hc : c.Like base)
    (d : Nat) : Structured calls stored exit targets c d (c.address target) (d + 1) [] := by
  have hall := stmt.exprs_subset he
  have hblocked := (Expr.blockedTarget_eq_nil_iff hlocation).mpr (h.plain target hall)
  exact Expr.structured_address hsymbols hvalue hlocation hblocked
    (h.refers target hall target target.self_mem_nodes) targets hc d

theorem step {target : Expr} (he : target ∈ stmt.exprs) (hlocation : target.isLocation)
    (hty : target.HasType base.symbols .int) {op : AluOp} {text : String} (targets : Marks)
    {c : Context} (hc : c.Like base) (d : Nat) :
    Structured calls stored exit targets c d (c.step op text target) d [] := by
  have hvalue : target.HasValue base.symbols := ⟨_, hty, rfl⟩
  simp only [Context.step, List.append_assoc, List.cons_append, List.nil_append]
  refine .note_append (.append (h.address hsymbols he hlocation hvalue targets hc d) (.cons
    (.pop .t1) ?_))
  rw [Context.after_address]
  exact .append (h.value hsymbols he hvalue targets hc d) (.cons (.pop .t0)
    (.cons (.op rfl rfl rfl) (.op rfl rfl rfl)))

theorem branchIfFalse {cond : Expr} (he : cond ∈ stmt.exprs)
    (hty : cond.HasType base.symbols .bool) {targets : Marks} {label : Label} {c : Context}
    (hc : c.Like base) {d : Nat} (hlabel : (label, d) ∈ targets) :
    Structured calls stored exit targets c d (c.branchIfFalse cond label) d [] :=
  .append (h.value hsymbols he ⟨_, hty, rfl⟩ targets hc d)
    (.cons (.pop .t0) (.branch rfl hlabel))

end Admissible

theorem structured_scriptAll {stmts : List Stmt} {targets : Marks}
    (h : ∀ stmt ∈ stmts, ∀ {c : Context}, c.Like base → ∀ d,
      Structured calls stored exit targets c d (stmt.script c exit) d [])
    {c : Context} (hc : c.Like base) (d : Nat) :
    Structured calls stored exit targets c d (Stmt.scriptAll c exit stmts) d [] := by
  induction stmts generalizing c with
  | nil => exact .nil
  | cons stmt stmts ih =>
      rw [Stmt.scriptAll]
      exact .append (h stmt (by simp) hc d)
        (ih (fun other hother => h other (by simp [hother])) (hc.after _))

theorem structured_body {body : Block} {targets : Marks}
    (h : ∀ stmt ∈ body.stmts, ∀ {c : Context}, c.Like base → ∀ d,
      Structured calls stored exit targets c d (stmt.script c exit) d [])
    {c : Context} (hc : c.Like base) (d : Nat) :
    Structured calls stored exit targets c d (body.script c exit) d [] := by
  obtain ⟨decls, stmts⟩ := body
  exact structured_scriptAll h hc d

/-- The code of an admissible statement is structured and leaves the operand stack as it was. -/
theorem structured (hsymbols : base.symbols.Typed) (hreturn : returnType.isReturnable)
    (h : stmt.Admissible calls stored base returnType) (targets : Marks) {c : Context}
    (hc : c.Like base) (d : Nat) :
    Structured calls stored exit targets c d (stmt.script c exit) d [] := by
  have hself := h.typed stmt stmt.self_mem_nodes
  induction stmt using Stmt.induction generalizing targets c d with
  | assign target value =>
      cases hself with
      | assign hty =>
          have hlocation := (h.grammar.exprs (e := .assign target value) (by simp [exprs])).assign.1
          exact .append (h.value hsymbols (by simp [exprs])
            (hasValue_of_assign hsymbols hlocation hty) targets hc d) (.pop .t0)
  | increment target =>
      cases hself with
      | increment hty => exact h.step hsymbols (by simp [exprs]) h.grammar.isFormed hty targets hc d
  | decrement target =>
      cases hself with
      | decrement hty => exact h.step hsymbols (by simp [exprs]) h.grammar.isFormed hty targets hc d
  | read target =>
      cases hself with
      | read hty hreadable =>
          have hlocation : target.isLocation := h.grammar.isFormed
          have hvalue : target.HasValue base.symbols :=
            ⟨_, hty, isValue_of_isReadable hsymbols hlocation hty hreadable⟩
          simp only [script, List.append_assoc, List.cons_append, List.nil_append]
          exact .note_append (.cons (.op rfl rfl rfl) (.cons (.op rfl rfl rfl) (.append
            (h.address hsymbols (by simp [exprs]) hlocation hvalue targets hc d)
            (.cons (.pop .t0) (.op rfl rfl rfl)))))
  | write value =>
      cases hself with
      | write hty hwritable =>
          rw [script, List.append_assoc]
          exact .note_append (.append (h.value hsymbols (by simp [exprs])
            (hasValue_of_isWritable hsymbols hty hwritable) targets hc d)
            (.cons (.pop .a0) (.cons (.op rfl rfl rfl) (.op rfl rfl rfl))))
  | ifThen cond body ih =>
      have hbody := h.inner body (by simp [bodies])
      cases hself with
      | ifThen hty =>
          have hc := hc.minted 1
          simp only [script, List.append_assoc, List.cons_append, List.nil_append]
          refine .note_append (.scope [(Context.synthetic c.labels, d)] rfl (.append
            (h.branchIfFalse hsymbols (by simp [exprs]) hty hc (by simp)) (.append
              (structured_body (fun inner hinner c hc d => ?_) (hc.after _) d)
              (.mark _))) (.refl _))
          exact ih inner hinner (hbody inner hinner) _ hc d
            ((hbody inner hinner).typed inner inner.self_mem_nodes)
  | ifElse cond thenBody elseBody ihthen ihelse =>
      have hthen := h.inner thenBody (by simp [bodies])
      have helse := h.inner elseBody (by simp [bodies])
      cases hself with
      | ifElse hty =>
          have hc := hc.minted 2
          simp only [script, List.append_assoc, List.cons_append, List.nil_append]
          refine .note_append (.scope [(Context.synthetic c.labels, d),
            (Context.synthetic (c.labels + 1), d)] rfl (.append
            (h.branchIfFalse hsymbols (by simp [exprs]) hty hc (by simp)) (.append
              (structured_body (fun inner hinner c hc d => ?_) (hc.after _) d)
              (.cons (.branch rfl (by simp)) (.cons (.mark _) (.append
                (structured_body (fun inner hinner c hc d => ?_) ((hc.after _).after _) d)
                (.mark _)))))) (.refl _))
          · exact ihthen inner hinner (hthen inner hinner) _ hc d
              ((hthen inner hinner).typed inner inner.self_mem_nodes)
          · exact ihelse inner hinner (helse inner hinner) _ hc d
              ((helse inner hinner).typed inner inner.self_mem_nodes)
  | whileLoop cond body ih =>
      have hbody := h.inner body (by simp [bodies])
      cases hself with
      | whileLoop hty =>
          have hc := hc.minted 2
          simp only [script, List.append_assoc, List.cons_append, List.nil_append]
          refine .note_append (.scope [(Context.synthetic c.labels, d),
            (Context.synthetic (c.labels + 1), d)] rfl (.cons (.mark _) (.append
            (h.branchIfFalse hsymbols (by simp [exprs]) hty hc (by simp)) (.append
              (structured_body (fun inner hinner c hc d => ?_) (hc.after _) d)
              (.cons (.branch rfl (by simp)) (.mark _))))) (.refl _))
          exact ih inner hinner (hbody inner hinner) _ hc d
            ((hbody inner hinner).typed inner inner.self_mem_nodes)
  | repeatLoop count body ih =>
      have hbody := h.inner body (by simp [bodies])
      cases hself with
      | repeatLoop hty =>
          have hc := hc.minted 2
          simp only [script, List.append_assoc, List.cons_append, List.nil_append]
          -- the counter stays on the stack while the loop runs
          refine .note_append (.scope [(Context.synthetic c.labels, d + 1),
            (Context.synthetic (c.labels + 1), d + 1)] rfl (.append
            (h.value hsymbols (by simp [exprs]) ⟨_, hty, rfl⟩ _ hc d) (.cons (.mark _)
              (.cons (.op rfl rfl rfl) (.cons (.branch rfl (by simp)) (.cons (.op rfl rfl rfl)
                (.cons (.op rfl rfl rfl) (.append
                  (structured_body (fun inner hinner c hc d => ?_) (hc.after _) (d + 1))
                  (.cons (.branch rfl (by simp)) (.cons (.mark _) (.pop .t0)))))))))) (.refl _))
          exact ih inner hinner (hbody inner hinner) _ hc d
            ((hbody inner hinner).typed inner inner.self_mem_nodes)
  | call callee args =>
      cases hself with
      | @call _ _ ty hty =>
          have he : Expr.call callee args ∈ (call callee args).exprs := by simp [exprs]
          have hgrammar := h.grammar.exprs he
          have hall := exprs_subset _ he
          have hblocked := (Expr.blocked_eq_nil_iff hgrammar).mpr (h.plain _ hall)
          rw [script, Expr.yields_eq hc.symbols hty, List.append_assoc]
          refine .note_append (.append (Expr.structured_call hsymbols hty hgrammar hblocked
            (h.refers _ hall) targets hc d) ?_)
          cases ty.isVoid with
          | true => exact .nil
          | false => exact .pop .t0
  | ret value? pos =>
      cases hself with
      | ret _ =>
          simp only [script, List.nil_append, List.append_assoc]
          exact .note_append .leave
      | retValue hty hvoid =>
          simp only [script, List.append_assoc, List.cons_append, List.nil_append]
          exact .note_append (.append (h.value hsymbols (by simp [exprs])
            ⟨_, hty, Ty.isValue_of_isReturnable hreturn hvoid⟩ targets hc d)
            (.cons (.pop .v0) .leave))

end Stmt

theorem Block.structured {calls : Label → Nat → Prop} {stored : Label → Prop} {exit : Label}
    {base : Context} (hsymbols : base.symbols.Typed) {returnType : Ty}
    (hreturn : returnType.isReturnable) {block : Block}
    (h : ∀ stmt ∈ block.stmts, stmt.Admissible calls stored base returnType) (targets : Marks)
    {c : Context} (hc : c.Like base) (d : Nat) :
    Script.Structured calls stored exit targets c d (block.script c exit) d [] :=
  Stmt.structured_body (fun stmt hstmt _ hc d =>
    Stmt.structured hsymbols hreturn (h stmt hstmt) targets hc d) hc d

end StackMips
