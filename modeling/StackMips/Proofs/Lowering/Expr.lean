import StackMips.Proofs.Lowering.Performs

/-!
# Code of well-typed expressions

The script of an expression that has a value pushes one word, and the generator performs it.
-/

namespace StackMips

open Mips

namespace Expr

variable {symbols : Arena}

/-! ## What typing says about operands -/

def HasValue (symbols : Arena) (e : Expr) : Prop := ∃ ty, e.HasType symbols ty ∧ ty.isValue

theorem HasValue.assign {target value : Expr} (h : (assign target value).HasValue symbols) :
    target.HasValue symbols ∧ value.HasValue symbols := by
  obtain ⟨ty, hty, hvalue⟩ := h
  cases hty with
  | assign htarget hsource _ => exact ⟨⟨ty, htarget, hvalue⟩, ty, hsource, hvalue⟩

theorem HasValue.unary {op : UnaryOp} {operand : Expr} (h : (unary op operand).HasValue symbols) :
    operand.HasValue symbols := by
  obtain ⟨ty, hty, _⟩ := h
  cases hty with
  | neg hoperand => exact ⟨_, hoperand, rfl⟩
  | not hoperand => exact ⟨_, hoperand, rfl⟩

theorem HasValue.binary {op : BinaryOp} {left right : Expr}
    (h : (binary op left right).HasValue symbols) :
    left.HasValue symbols ∧ right.HasValue symbols := by
  obtain ⟨ty, hty, _⟩ := h
  cases hty with
  | arithmetic _ hleft hright | logical _ hleft hright | relational _ hleft hright =>
      exact ⟨⟨_, hleft, rfl⟩, _, hright, rfl⟩
  | equality _ hleft hright hty =>
      have hvalue := Ty.isValue_of_isComparable hty
      exact ⟨⟨_, hleft, hvalue⟩, _, hright, hvalue⟩

theorem hasValue_args {callee : Ident} {args : List Expr} {ty : Ty} (hsymbols : symbols.Typed)
    (h : (call callee args).HasType symbols ty) : ∀ arg ∈ args, arg.HasValue symbols := by
  cases h with
  | @call _ _ info hcallee hcount hargs =>
      have hstorable := (hsymbols.info hcallee).storable
      generalize info.paramTypes = formals at hargs hstorable
      clear hcallee hcount
      induction hargs with
      | nil => simp
      | cons hty _ ih =>
          simp only [List.forall_mem_cons] at hstorable ⊢
          exact ⟨⟨_, hty, Ty.isValue_of_isStorable hstorable.1⟩, ih hstorable.2⟩

theorem yields_eq {callee : Ident} {args : List Expr} {ty : Ty} {c : Context}
    (hc : c.symbols = symbols) (h : (call callee args).HasType symbols ty) :
    c.yields callee = !ty.isVoid := by
  cases h with
  | call hcallee _ _ => simp [Context.yields, hc, hcallee]

/-! ## The depth of scripts -/

theorem depth_loadAddress {c : Context} {id : Ident} {ty : Ty} (h : c.symbols.ty? id = some ty)
    (d : Nat) : Script.depth d (c.loadAddress id) = d + 1 := by
  obtain ⟨location, hlocation⟩ := Arena.location?_isSome h
  rw [Context.loadAddress, hlocation]
  cases location <;> rfl

theorem depth_load {c : Context} {id : Ident} {ty : Ty} (h : c.symbols.ty? id = some ty)
    (d : Nat) : Script.depth d (c.load id) = d + 1 := by
  obtain ⟨location, hlocation⟩ := Arena.location?_isSome h
  rw [Context.load, hlocation]
  cases location <;> rfl

theorem eq_name_of_blockedTarget {target : Expr} (hlocation : target.isLocation)
    (hblocked : target.blockedTarget = []) : ∃ id, target = .name id := by
  cases target with
  | name id => exact ⟨id, rfl⟩
  | field base id => cases hblocked
  | int _ _ | str _ _ | bool _ _ | assign _ _ | call _ _ | unary _ _ | binary _ _ _ =>
      cases hlocation

theorem depth_address {c : Context} {target : Expr} (hc : c.symbols = symbols)
    (h : target.HasValue symbols) (hlocation : target.isLocation)
    (hblocked : target.blockedTarget = []) (d : Nat) :
    Script.depth d (c.address target) = d + 1 := by
  obtain ⟨id, rfl⟩ := eq_name_of_blockedTarget hlocation hblocked
  obtain ⟨ty, hty, _⟩ := h
  cases hty with
  | name hid => exact depth_loadAddress (hc ▸ hid) d

theorem depth_scriptAll_of {args : List Expr} {c : Context} (hc : c.symbols = symbols)
    (h : ∀ arg ∈ args, ∀ (c : Context) (d : Nat), c.symbols = symbols →
      Script.depth d (arg.script c) = d + 1) (d : Nat) :
    Script.depth d (Expr.scriptAll c args) = d + args.length := by
  induction args generalizing c d with
  | nil => rfl
  | cons arg args ih =>
      rw [Expr.scriptAll, Script.depth_append, h arg (by simp) c d hc,
        ih (by simpa using hc) (fun other hother => h other (by simp [hother])), List.length_cons]
      omega

theorem depth_call {callee : Ident} {args : List Expr} {ty : Ty} {c : Context}
    (hc : c.symbols = symbols) (h : (call callee args).HasType symbols ty)
    (hargs : ∀ d, Script.depth d (Expr.scriptAll c args) = d + args.length) (d : Nat) :
    Script.depth d ((call callee args).script c) = if ty.isVoid then d else d + 1 := by
  cases hvoid : ty.isVoid <;> simp [script, hargs, yields_eq hc h, hvoid]

/-- The script of an expression with a value pushes one word. -/
theorem depth_script (hsymbols : symbols.Typed) {e : Expr} (h : e.HasValue symbols)
    (hgrammar : e.InGrammar) (hblocked : e.blocked = []) {c : Context}
    (hc : c.symbols = symbols) (d : Nat) : Script.depth d (e.script c) = d + 1 := by
  induction e using Expr.induction generalizing c d with
  | int _ _ | bool _ _ => rfl
  | str text pos =>
      simp only [script, Context.string, Context.pooling, Script.depth_append]
      cases c.strings.lookup text <;> rfl
  | name id =>
      obtain ⟨ty, hty, _⟩ := h
      cases hty with
      | name hid => exact depth_load (hc ▸ hid) d
  | field base id _ => cases hblocked
  | assign target value _ ihvalue =>
      obtain ⟨hvalueBlocked, htargetBlocked⟩ := List.append_eq_nil_iff.mp hblocked
      obtain ⟨hlocation, _, hvalueGrammar⟩ := hgrammar.assign
      have hvalue := ihvalue h.assign.2 hvalueGrammar hvalueBlocked hc d
      have htarget := depth_address hc h.assign.1 hlocation htargetBlocked
      simp [script, hvalue, htarget]
  | call callee args ih =>
      obtain ⟨ty, hty, hvalue⟩ := h
      rw [blocked, blockedAll_eq_flatMap, List.flatMap_eq_nil_iff] at hblocked
      have hargs := depth_scriptAll_of hc fun arg harg c d hc =>
        ih arg harg (hasValue_args hsymbols hty arg harg) (hgrammar.call arg harg)
          (hblocked arg harg) hc d
      simp [depth_call hc hty hargs, Ty.isVoid_of_isValue hvalue]
  | unary op operand ih =>
      have hoperand := ih h.unary hgrammar.unary hblocked hc d
      simp [script, hoperand]
  | binary op left right ihleft ihright =>
      obtain ⟨hleftBlocked, hrightBlocked⟩ := List.append_eq_nil_iff.mp hblocked
      have hleft := fun (c : Context) (hc : c.symbols = symbols) (d : Nat) =>
        ihleft h.binary.1 hgrammar.binary.1 hleftBlocked hc d
      have hright := fun (c : Context) (hc : c.symbols = symbols) (d : Nat) =>
        ihright h.binary.2 hgrammar.binary.2 hrightBlocked hc d
      rw [script]
      cases op.code with
      | strict alu text => simp [hleft, hright, hc]
      | skipping decisive text => simp [hleft, hright, hc]

/-! ## Lowering -/

theorem address_performs {g : Generator} {target : Expr} (hg : g.context.symbols = symbols)
    (h : target.HasValue symbols) (hlocation : target.isLocation) :
    Performs (Gen.address target) g (g.context.address target) target.blockedTarget := by
  cases target with
  | name id =>
      obtain ⟨ty, hty, _⟩ := h
      cases hty with
      | name hid =>
          obtain ⟨location, hid⟩ := Arena.location?_isSome hid
          exact Gen.loadAddress_apply (hg ▸ hid)
  | field base id => exact ⟨g, rfl⟩
  | int _ _ | str _ _ | bool _ _ | assign _ _ | call _ _ | unary _ _ | binary _ _ _ =>
      cases hlocation

/-- The generator performs the script of the expression, which leaves one word on the stack. -/
structure Lowers (symbols : Arena) (e : Expr) : Prop where
  depth : ∀ (c : Context) (d : Nat), c.symbols = symbols → e.blocked = [] →
    Script.depth d (e.script c) = d + 1
  performs : ∀ g : Generator, g.context.symbols = symbols →
    Performs e.lower g (e.script g.context) e.blocked

theorem unary_performs {op : UnaryOp} {operand : Expr} (h : operand.Lowers symbols)
    {g : Generator} (hg : g.context.symbols = symbols) :
    Performs (Gen.unary op operand.lower) g ((unary op operand).script g.context)
      operand.blocked := by
  cases op with
  | neg | not =>
      refine Performs.of_eq (.step (Gen.comment_apply _ g)
        ((h.performs _ (by simpa using hg)).seq fun hblocked => .step (Gen.pop_apply _ ?_)
          (.step (Gen.op_apply _ _) (.ok (Gen.push_apply _ _))))) ?_ ?_
      · simp [h.depth, hblocked, hg]
      · simp [script, UnaryOp.note, UnaryOp.operation]
      · simp

section Binary

variable {text : String} {left right : Expr} (hleft : left.Lowers symbols)
  (hright : right.Lowers symbols) {g : Generator} (hg : g.context.symbols = symbols)
include hleft hright hg

theorem strict_performs {alu : AluOp} :
    Performs (Gen.strict alu text left.lower right.lower) g
      (g.context.note text ++ left.script g.context ++
        right.script (g.context.after (left.script g.context)) ++
        [Action.pop .t1, .pop .t0, .op (.alu alu .t0 .t0 (.reg .t1)), .push .t0])
      (left.blocked ++ right.blocked) := by
  refine Performs.of_eq (.step (Gen.comment_apply _ g)
    ((hleft.performs _ (by simpa using hg)).seq fun hleftBlocked =>
      (hright.performs _ (by simpa using hg)).seq fun hrightBlocked => .step (Gen.pop_apply _ ?_)
        (.step (Gen.pop_apply _ ?_) (.step (Gen.op_apply _ _) (.ok (Gen.push_apply _ _)))))) ?_ ?_
  · simp [hleft.depth, hright.depth, hleftBlocked, hrightBlocked, hg]
  · simp [hleft.depth, hright.depth, hleftBlocked, hrightBlocked, hg]
  · simp
  · simp

theorem skipping_performs {decisive : Int} :
    Performs (Gen.skipping decisive text left.lower right.lower) g
      ([Action.mint] ++ g.context.note text ++ left.script (g.context.minted 1) ++
        [Action.pop .t0, .op (.beq .t0 decisive (Context.synthetic g.context.labels))] ++
        right.script ((g.context.minted 1).after (left.script (g.context.minted 1))) ++
        [Action.pop .t0, .emit (.label (Context.synthetic g.context.labels) none), .push .t0])
      (left.blocked ++ right.blocked) := by
  refine Performs.of_eq (.step (Gen.freshLabel_apply g) (.step (Gen.comment_apply _ _)
    ((hleft.performs _ (by simpa using hg)).seq fun hleftBlocked => .step (Gen.pop_apply _ ?_)
      (.step (Gen.op_apply _ _) ((hright.performs _ (by simpa using hg)).seq fun hrightBlocked =>
        .step (Gen.pop_apply _ ?_) (.step (Gen.defineLabel_apply _ _)
          (.ok (Gen.push_apply _ _)))))))) ?_ ?_
  · simp [hleft.depth, hleftBlocked, hg]
  · simp [hleft.depth, hright.depth, hleftBlocked, hrightBlocked, hg]
  · simp
  · simp

end Binary

theorem isStruct_of_isAssignable {ty : Ty} (h : ty.isAssignable) : ty.isStruct = false := by
  cases ty <;> first | rfl | cases h

theorem assign_performs {target value : Expr} (h : (assign target value).HasValue symbols)
    (hlocation : target.isLocation) (hvalue : value.Lowers symbols) {g : Generator}
    (hg : g.context.symbols = symbols) :
    Performs (Gen.assign target value.lower) g ((assign target value).script g.context)
      (assign target value).blocked := by
  have htarget := h.assign.1
  obtain ⟨ty, hty, _⟩ := h
  cases hty with
  | assign hty _ hassignable =>
      have hstruct : ¬ty.isStruct := by simp [isStruct_of_isAssignable hassignable]
      refine .get (.lift (hg ▸ typeOf_eq hty) (.skip hstruct (Performs.of_eq
        (.step (Gen.comment_apply _ g) ((hvalue.performs _ (by simpa using hg)).seq
          fun hvalueBlocked => (address_performs (by simpa using hg) htarget hlocation).seq
            fun htargetBlocked => .step (Gen.pop_apply _ ?_) (.step (Gen.pop_apply _ ?_)
              (.step (Gen.op_apply _ _) (.ok (Gen.push_apply _ _)))))) ?_ ?_)))
      · simp [hvalue.depth, hvalueBlocked, hg, depth_address, htarget, hlocation, htargetBlocked]
      · simp [hvalue.depth, hvalueBlocked, hg, depth_address, htarget, hlocation, htargetBlocked]
      · simp [script]
      · simp [blocked]

theorem lowerAll_performs {args : List Expr} (h : ∀ arg ∈ args, arg.Lowers symbols)
    {g : Generator} (hg : g.context.symbols = symbols) :
    Performs (Expr.lowerAll args) g (Expr.scriptAll g.context args) (Expr.blockedAll args) := by
  induction args generalizing g with
  | nil => exact .ok rfl
  | cons arg args ih =>
      refine Performs.of_eq (((h arg (by simp)).performs g hg).seq fun _ =>
        ih (fun other hother => h other (by simp [hother])) (by simpa using hg)) ?_ rfl
      simp [Expr.scriptAll]

/-- What is done only after a call that returns a value. -/
theorem whenReturns_performs {callee : Ident} {args : List Expr} {ty : Ty}
    (h : (call callee args).HasType symbols ty) {g : Generator}
    (hg : g.context.symbols = symbols) {m : Gen Unit} {script : Script}
    (hm : ty.isVoid = false → m g = .ok () (g.perform script)) :
    Performs (do if ← callee.returnsValue (← get).context.symbols then m) g
      (if g.context.yields callee then script else []) [] := by
  have hreturns : callee.returnsValue g.context.symbols = .ok !ty.isVoid := by
    cases h with
    | call hcallee _ _ =>
        rw [Ident.returnsValue, hg, Ident.returnType_eq hcallee]
        rfl
  refine .get (.lift hreturns (.ok ?_))
  rw [yields_eq hg h]
  cases hvoid : ty.isVoid with
  | true => rfl
  | false => simpa using hm hvoid

theorem call_performs {callee : Ident} {args : List Expr} {ty : Ty}
    (h : (call callee args).HasType symbols ty) (hargs : ∀ arg ∈ args, arg.Lowers symbols)
    {g : Generator} (hg : g.context.symbols = symbols) :
    Performs (Gen.call callee args.length (Expr.lowerAll args)) g
      ((call callee args).script g.context) (call callee args).blocked := by
  refine Performs.of_eq (.step (Gen.comment_apply _ g)
    ((lowerAll_performs hargs (by simpa using hg)).seq fun hblocked =>
      .step (Gen.functionLabel_apply _ _) (.step (Gen.op_apply _ _)
        (.step (Gen.release_apply ?_) (whenReturns_performs h (by simpa using hg)
          fun _ => Gen.push_apply _ _))))) ?_ ?_
  · rw [blockedAll_eq_flatMap, List.flatMap_eq_nil_iff] at hblocked
    simp [depth_scriptAll_of hg fun arg harg c d hc =>
      (hargs arg harg).depth c d hc (hblocked arg harg)]
  · simp [script]
  · simp [blocked]

/-- The check after the code of an expression passes if its script pushes one word. -/
theorem lowers_of_depth {e : Expr} {code : Gen Unit} (hlower : e.lower = Gen.pushing e code)
    (hdepth : ∀ (c : Context) (d : Nat), c.symbols = symbols → e.blocked = [] →
      Script.depth d (e.script c) = d + 1)
    (hcode : ∀ g : Generator, g.context.symbols = symbols →
      Performs code g (e.script g.context) e.blocked) : e.Lowers symbols where
  depth := hdepth
  performs g hg := by
    rw [hlower]
    exact (hcode g hg).pushing fun hblocked => hdepth _ _ hg hblocked

theorem lowers_of (hsymbols : symbols.Typed) {e : Expr} (h : e.HasValue symbols)
    (hgrammar : e.InGrammar) {code : Gen Unit} (hlower : e.lower = Gen.pushing e code)
    (hcode : ∀ g : Generator, g.context.symbols = symbols →
      Performs code g (e.script g.context) e.blocked) : e.Lowers symbols :=
  lowers_of_depth hlower
    (fun _ d hc hblocked => depth_script hsymbols h hgrammar hblocked hc d) hcode

theorem int_lowers (value : Int32) (pos : Pos) : (int value pos).Lowers symbols :=
  lowers_of_depth (by rw [lower]) (fun _ _ _ _ => rfl) fun g _ => Gen.constant_apply _ g

theorem name_lowers {id : Ident} {ty : Ty} (hid : symbols.ty? id = some ty) :
    (name id).Lowers symbols := by
  refine lowers_of_depth (by rw [lower]) (fun c d hc _ => depth_load (hc ▸ hid) d) fun g hg => ?_
  obtain ⟨location, hlocation⟩ := Arena.location?_isSome hid
  exact Gen.load_apply (hg ▸ hlocation)

theorem binary_lowers {op : BinaryOp} {left right : Expr} (hleft : left.Lowers symbols)
    (hright : right.Lowers symbols) : (binary op left right).Lowers symbols := by
  refine lowers_of_depth (by rw [lower]) ?_ fun g hg => ?_
  · intro c d hc hblocked
    obtain ⟨hleftBlocked, hrightBlocked⟩ := List.append_eq_nil_iff.mp hblocked
    rw [script]
    cases op.code with
    | strict alu text => simp [hleft.depth, hright.depth, hleftBlocked, hrightBlocked, hc]
    | skipping decisive text => simp [hleft.depth, hright.depth, hleftBlocked, hrightBlocked, hc]
  · rw [Gen.binary, script]
    cases op.code with
    | strict alu text => exact strict_performs hleft hright hg
    | skipping decisive text => exact skipping_performs hleft hright hg

/-- The generator performs the script of every expression that has a value. -/
theorem lowers (hsymbols : symbols.Typed) {e : Expr} (h : e.HasValue symbols)
    (hgrammar : e.InGrammar) : e.Lowers symbols := by
  induction e using Expr.induction with
  | int value pos => exact int_lowers value pos
  | bool value _ =>
      exact lowers_of hsymbols h hgrammar (by rw [lower]) fun g _ => Gen.constant_apply _ g
  | str text _ =>
      exact lowers_of hsymbols h hgrammar (by rw [lower]) fun g _ => Gen.string_apply text g
  | name id =>
      obtain ⟨ty, hty, _⟩ := h
      cases hty with
      | name hid => exact name_lowers hid
  | field base id _ =>
      refine lowers_of hsymbols h hgrammar (by rw [lower]) fun g _ => ?_
      exact ⟨g, rfl⟩
  | assign target value _ ihvalue =>
      obtain ⟨hlocation, _, hvalueGrammar⟩ := hgrammar.assign
      exact lowers_of hsymbols h hgrammar (by rw [lower]) fun g hg =>
        assign_performs h hlocation (ihvalue h.assign.2 hvalueGrammar) hg
  | call callee args ih =>
      refine lowers_of hsymbols h hgrammar (by rw [lower]) fun g hg => ?_
      obtain ⟨ty, hty, _⟩ := h
      exact call_performs hty (fun arg harg =>
        ih arg harg (hasValue_args hsymbols hty arg harg) (hgrammar.call arg harg)) hg
  | unary op operand ih =>
      exact lowers_of hsymbols h hgrammar (by rw [lower]) fun g hg =>
        unary_performs (ih h.unary hgrammar.unary) hg
  | binary op left right ihleft ihright =>
      have hleft := ihleft h.binary.1 hgrammar.binary.1
      have hright := ihright h.binary.2 hgrammar.binary.2
      exact binary_lowers hleft hright

end Expr

end StackMips
