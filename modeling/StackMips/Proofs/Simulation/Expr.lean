import StackMips.Proofs.Simulation.Setting

/-!
# Code of expressions computes their values

Evaluation of a well-typed expression keeps booleans canonical, and the code of the expression
pushes the word that stands for its value.
-/

namespace StackMips

open Mips

/-! ## Operators -/

theorem Mips.Word.flag_eq (b : Bool) : Word.flag b = 0 ∨ Word.flag b = 1 := by
  cases b
  · exact .inl rfl
  · exact .inr rfl

theorem Ty.isStorable_or_isString {ty : Ty} (h : ty.isComparable) :
    ty.isStorable ∨ ty.isString := by
  cases ty <;> simp_all [isComparable, isStorable, isString]

theorem Mips.Word.flag_ne_zero {word : Word} (h : word = 0 ∨ word = 1) :
    Word.flag (word != 0) = word := by
  rcases h with rfl | rfl <;> rfl

namespace BinaryOp

theorem decides?_eq_none {op : BinaryOp} (h : op.family ≠ .logical) : op.decides? = none := by
  cases op <;> first | rfl | exact absurd rfl h

theorem decides?_of_logical {op : BinaryOp} (h : op.family = .logical) :
    ∃ decisive, op.decides? = some decisive := by
  cases op <;> cases h <;> exact ⟨_, rfl⟩

theorem apply_canonical {op : BinaryOp} (hop : op.family = .relational ∨ op.family = .equality)
    {a b : Value} {word : Word} (h : op.apply a b = some word) : word = 0 ∨ word = 1 := by
  cases a <;> cases b <;> cases op <;>
    simp_all only [apply, onWords, onTexts, family, reduceCtorEq, or_self, Option.some.injEq] <;>
    exact h ▸ Word.flag_eq _

theorem code_of_strict {op : BinaryOp} (h : op.decides? = none) :
    ∃ alu text, op.code = .strict alu text ∧
      ∀ a b word, op.onWords a b = some word → alu.eval a b = some word := by
  cases op <;> first
    | exact ⟨_, _, rfl, fun _ _ _ h => by
        simpa [onWords, AluOp.eval, BitVec.slt, BitVec.sle] using h⟩
    | cases h

theorem code_of_skipping {op : BinaryOp} {decisive : Bool} (h : op.decides? = some decisive) :
    ∃ text, op.code = .skipping (if decisive then 1 else 0) text := by
  cases op <;> cases h <;> exact ⟨_, rfl⟩

/-- Only equality looks at texts. -/
theorem code_of_onTexts {op : BinaryOp} {a b : String} {word : Word}
    (h : op.onTexts a b = some word) :
    (∃ text, op.code = .strict .seq text) ∧ word = .flag (a == b) ∨
      (∃ text, op.code = .strict .sne text) ∧ word = .flag (a != b) := by
  cases op <;> cases h
  · exact .inl ⟨⟨_, rfl⟩, rfl⟩
  · exact .inr ⟨⟨_, rfl⟩, rfl⟩

end BinaryOp

/-! ## Room on the operand stack -/

theorem Expr.one_le_peak {e : Expr} {store store' : Store} {result : Value}
    (h : e.eval store = some (result, store')) (symbols : Arena) : 1 ≤ e.peak symbols := by
  induction e using Expr.induction generalizing store store' result with
  | int _ _ | str _ _ | bool _ _ | name _ | field _ _ _ => exact Nat.le_refl 1
  | call _ _ _ => cases h
  | assign _ _ _ _ => simp only [peak]; omega
  | unary op operand ih =>
      obtain ⟨_, _, hoperand, _⟩ := eval_unary h
      exact ih hoperand
  | binary op left right ihleft _ =>
      have hleft : 1 ≤ left.peak symbols := by
        cases hop : op.decides? with
        | none =>
            obtain ⟨_, _, _, _, hleft, _⟩ := eval_strict hop h
            exact ihleft hleft
        | some decisive =>
            obtain ⟨_, _, hleft, _⟩ := eval_skipping hop h
            exact ihleft hleft
      rw [peak]
      split <;> omega

/-! ## Names in an expression -/

theorem Setting.Covers.mono {S : Setting} {ids ids' : List Ident} (h : S.Covers ids')
    (hsubset : ids ⊆ ids') : S.Covers ids :=
  fun id hid => h id (hsubset hid)

theorem Setting.Covers.append {S : Setting} {ids ids' : List Ident} (h : S.Covers (ids ++ ids')) :
    S.Covers ids ∧ S.Covers ids' :=
  ⟨h.mono (List.subset_append_left _ _), h.mono (List.subset_append_right _ _)⟩

/-! ## Evaluation keeps booleans canonical -/

/-- A value of a type: only a string is a text, and a boolean is 0 or 1. -/
def Value.Fits (ty : Ty) : Value → Prop
  | .word w => ty.isString = false ∧ (ty = .bool → w = 0 ∨ w = 1)
  | .text _ => ty.isString

namespace Expr

variable {S : Setting}

theorem names_of_hasType {id : Ident} {ty : Ty} (hty : (name id).HasType S.symbols ty)
    (hvalue : ty.isStorable ∨ ty.isString) (hcovers : S.Covers [id]) :
    ∃ link location symbol, id.link = some link ∧ S.symbols.location? id = some location ∧
      S.Place link (S.locate location) ∧ S.symbols.get? link = some symbol ∧ symbol.ty = ty := by
  cases hty with
  | name hid =>
      have hstorable : ty.isStorable := by
        rcases hvalue with hstorable | hstring
        · exact hstorable
        · simp [(S.typed.of_ty? hid).2.2] at hstring
      obtain ⟨link, location, hlink, hlocation, hplace⟩ := hcovers id (by simp) ty hid hstorable
      obtain ⟨symbol, hsymbol, hty⟩ := Option.map_eq_some_iff.mp hid
      refine ⟨link, location, symbol, hlink, hlocation, hplace, ?_, hty⟩
      simpa [Arena.symbol?, hlink] using hsymbol

theorem isStorable_of_name {id : Ident} {ty : Ty} (hty : (name id).HasType S.symbols ty)
    (hfunction : ty.isFunction = false) (hstructDef : ty.isStructDef = false) :
    ty.isStorable := by
  cases hty with
  | name hid =>
      have htyped := S.typed.of_ty? hid
      cases ty <;> simp_all [Ty.isStorable, Ty.isFunction, Ty.isStructDef, Ty.isError, Ty.isVoid,
        Ty.isString]

theorem isStorable_of_assign {target value : Expr} {ty : Ty} {store store' : Store}
    {result : Value} (hty : (assign target value).HasType S.symbols ty)
    (h : (assign target value).eval store = some (result, store')) : ty.isStorable := by
  obtain ⟨id, _, _, _, rfl, _⟩ := eval_assign h
  cases hty with
  | assign htarget _ hassignable =>
      refine isStorable_of_name htarget ?_ ?_ <;>
        cases ty <;> simp_all [Ty.isAssignable, Ty.isFunction, Ty.isStructDef]

/-- An assignment of a value of the right type keeps booleans canonical. -/
theorem canonical_update {store : Store} {link : SymbolId} {symbol : Symbol} {word : Word}
    (hcanonical : S.Canonical store) (hsymbol : S.symbols.get? link = some symbol)
    (hword : symbol.ty = .bool → word = 0 ∨ word = 1) :
    S.Canonical (Function.update store link word) := by
  intro link' a' hplace' symbol' hsymbol' hbool
  by_cases heq : link' = link
  · subst heq
    obtain rfl := Option.some.inj (hsymbol.symm.trans hsymbol')
    simpa using hword hbool
  · simpa [heq] using hcanonical link' a' hplace' symbol' hsymbol' hbool

theorem eval_fits {e : Expr} {ty : Ty} (hty : e.HasType S.symbols ty)
    (hvalue : ty.isStorable ∨ ty.isString) (hcovers : S.Covers e.uses) {store store' : Store}
    {result : Value} (hcanonical : S.Canonical store)
    (h : e.eval store = some (result, store')) : result.Fits ty ∧ S.Canonical store' := by
  induction e using Expr.induction generalizing ty store store' result with
  | int value pos =>
      cases hty
      cases h
      exact ⟨⟨rfl, nofun⟩, hcanonical⟩
  | str text pos =>
      cases hty
      cases h
      exact ⟨rfl, hcanonical⟩
  | bool value pos =>
      cases hty
      cases h
      exact ⟨⟨rfl, fun _ => Word.flag_eq value⟩, hcanonical⟩
  | name id =>
      obtain ⟨link, location, symbol, hlink, _, hplace, hsymbol, rfl⟩ :=
        names_of_hasType hty hvalue hcovers
      simp only [eval, hlink, Option.map_some, Option.some.injEq, Prod.mk.injEq] at h
      obtain ⟨rfl, rfl⟩ := h
      exact ⟨⟨(S.typed.ty link symbol hsymbol).2.2, hcanonical link _ hplace symbol hsymbol⟩,
        hcanonical⟩
  | field base id _ => cases h
  | call callee args _ => cases h
  | assign target value _ ih =>
      obtain ⟨id, link, word, middle, rfl, hlink, heval, rfl, rfl⟩ := eval_assign h
      rw [uses_assign] at hcovers
      cases hty with
      | assign htarget hvalueTy _ =>
          obtain ⟨hfits, hmiddle⟩ := ih hvalueTy hvalue hcovers.append.2 hcanonical heval
          obtain ⟨link', _, symbol, hlink', _, hplace, hsymbol, rfl⟩ :=
            names_of_hasType htarget hvalue hcovers.append.1
          obtain rfl := Option.some.inj (hlink.symm.trans hlink')
          exact ⟨hfits, canonical_update hmiddle hsymbol hfits.2⟩
  | unary op operand ih =>
      obtain ⟨word, word', heval, happly, rfl⟩ := eval_unary h
      rw [uses_unary] at hcovers
      cases hty with
      | neg hoperand =>
          exact ⟨⟨rfl, nofun⟩, (ih hoperand (.inl rfl) hcovers hcanonical heval).2⟩
      | not hoperand =>
          cases happly
          exact ⟨⟨rfl, fun _ => Word.flag_eq _⟩,
            (ih hoperand (.inl rfl) hcovers hcanonical heval).2⟩
  | binary op left right ihleft ihright =>
      rw [uses_binary] at hcovers
      -- operators that evaluate both operands, of one type
      have hstrict : ∀ {ty' : Ty}, op.decides? = none → left.HasType S.symbols ty' →
          right.HasType S.symbols ty' → (ty'.isStorable ∨ ty'.isString) →
          ∃ a b word, op.apply a b = some word ∧ result = .word word ∧ S.Canonical store' := by
        intro ty' hop hleft hright hvalue'
        obtain ⟨a, middle, b, word, hevalLeft, hevalRight, happly, rfl⟩ := eval_strict hop h
        have hmiddle := (ihleft hleft hvalue' hcovers.append.1 hcanonical hevalLeft).2
        exact ⟨a, b, word, happly, rfl,
          (ihright hright hvalue' hcovers.append.2 hmiddle hevalRight).2⟩
      cases hty with
      | arithmetic hop hleft hright =>
          obtain ⟨a, b, word, _, rfl, hstore'⟩ :=
            hstrict (BinaryOp.decides?_eq_none (by simp [hop])) hleft hright (.inl rfl)
          exact ⟨⟨rfl, nofun⟩, hstore'⟩
      | relational hop hleft hright =>
          obtain ⟨a, b, word, happly, rfl, hstore'⟩ :=
            hstrict (BinaryOp.decides?_eq_none (by simp [hop])) hleft hright (.inl rfl)
          exact ⟨⟨rfl, fun _ => BinaryOp.apply_canonical (.inl hop) happly⟩, hstore'⟩
      | equality hop hleft hright hcomparable =>
          obtain ⟨a, b, word, happly, rfl, hstore'⟩ :=
            hstrict (BinaryOp.decides?_eq_none (by simp [hop])) hleft hright
              (Ty.isStorable_or_isString hcomparable)
          exact ⟨⟨rfl, fun _ => BinaryOp.apply_canonical (.inr hop) happly⟩, hstore'⟩
      | logical hop hleft hright =>
          obtain ⟨decisive, hdecides⟩ := BinaryOp.decides?_of_logical hop
          obtain ⟨word, middle, hevalLeft, hcase⟩ := eval_skipping hdecides h
          have hmiddle := (ihleft hleft (.inl rfl) hcovers.append.1 hcanonical hevalLeft).2
          rcases hcase with ⟨_, rfl, rfl⟩ | ⟨_, hevalRight⟩
          · exact ⟨⟨rfl, fun _ => Word.flag_eq decisive⟩, hmiddle⟩
          · exact ihright hright (.inl rfl) hcovers.append.2 hmiddle hevalRight

end Expr

/-! ## Leaves -/

namespace Setting

variable {S : Setting} {store : Store} {s : State} {c : Context}

theorem Sits.address_eq (h : S.Sits store s) (location : Location) :
    S.image.address s location.address = S.locate location := by
  cases location <;> simp [Image.address, Location.address, locate, Image.locate, h.fp]

theorem exec_load {id : Ident} {location : Location} {link : SymbolId}
    (hlocation : c.symbols.location? id = some location) (hplace : S.Place link (S.locate location))
    (hsits : S.Sits store s) :
    Script.exec S.image (c.load id) s = some ((s.set .t0 (store link)).next.push .t0) := by
  have haddress := hsits.address_eq location
  have haligned := S.aligned hplace
  have hholds := hsits.holds hplace
  cases location <;>
    simp_all [Context.load, Location.address, Image.exec, hsits.aligned]

theorem exec_loadAddress {id : Ident} {location : Location}
    (hlocation : c.symbols.location? id = some location) (hsits : S.Sits store s) :
    Script.exec S.image (c.loadAddress id) s =
      some ((s.set .t0 (S.locate location)).next.push .t0) := by
  have haddress := hsits.address_eq location
  cases location <;>
    simp_all [Context.loadAddress, Location.address, Image.exec, hsits.aligned]

theorem exec_constant {value : Int} (hsits : S.Sits store s) :
    Script.exec S.image (c.constant value) s =
      some ((s.set .t0 (.ofInt 32 value)).next.push .t0) := by
  simp [Context.constant, Image.exec, hsits.aligned]

end Setting

/-! ## Code -/

namespace Expr

variable {S : Setting} {store store' : Store} {result : Value}

def Computes (S : Setting) (e : Expr) (store : Store) (result : Value) (store' : Store) : Prop :=
  ∀ (c : Context) (s : State), c.symbols = S.symbols →
    (c.after (e.script c)).strings.Le S.pool → S.Sits store s →
    S.floor + 4 * e.peak S.symbols ≤ (s.reg .sp).toNat →
    S.image.Reaches (e.script c) s (S.Yields result store' s)

theorem constant_computes {e : Expr} {value : Int} (hscript : ∀ c, e.script c = c.constant value)
    (hpeak : e.peak S.symbols = 1) :
    e.Computes S store (.word (.ofInt 32 value)) store := by
  intro c s _ _ hsits hroom
  rw [hscript]
  have hrests := (Setting.Rests.refl hsits).set .t0 (.ofInt 32 value) (by decide) (by decide)
  exact .exec (Setting.exec_constant hsits)
    (hrests.next.push (by omega) (by simp [Setting.Represents]))

theorem name_computes {id : Ident} {location : Location} {link : SymbolId}
    (hlocation : S.symbols.location? id = some location)
    (hplace : S.Place link (S.locate location)) :
    (name id).Computes S store (.word (store link)) store := by
  intro c s hc _ hsits hroom
  simp only [peak] at hroom
  have hrests := (Setting.Rests.refl hsits).set .t0 (store link) (by decide) (by decide)
  exact .exec (Setting.exec_load (hc ▸ hlocation) hplace hsits)
    (hrests.next.push (by omega) (by simp [Setting.Represents]))

theorem str_computes {text : String} {pos : Pos} :
    (str text pos).Computes S store (.text text) store := by
  intro c s _ hpool hsits hroom
  simp only [peak] at hroom
  have hlookup : S.pool.lookup text = some (c.stringLabel text) := by
    refine hpool _ _ ?_
    simpa [script, Context.string] using c.lookup_after_pooling text
  refine (hsits.inert (c.isInert_pooling text)).seq fun t ht => .exec
    (t := (t.set .t0 (S.image.dataAddress (c.stringLabel text))).next.push .t0) ?_ ?_
  · simp [Image.exec, Image.address, ht.sits.aligned]
  · refine (ht.set .t0 _ (by decide) (by decide)).next.push (by omega) ?_
    exact ⟨_, hlookup, by simp⟩

theorem unary_computes {op : UnaryOp} {operand : Expr} {word word' : Word}
    (hpeak : 1 ≤ operand.peak S.symbols)
    (hoperand : operand.Computes S store (.word word) store')
    (happly : op.apply word = some word') :
    (unary op operand).Computes S store (.word word') store' := by
  intro c s hc hpool hsits hroom
  simp only [peak] at hroom
  have hpool' : (c.after (operand.script c)).strings.Le S.pool := by simpa [script] using hpool
  have hvalue := (hsits.inert (c.isInert_note op.note)).seq fun t ht =>
    (hoperand c t hc hpool' ht.sits (by rw [ht.sp]; omega)).mono fun u hu => ht.yields hu
  refine hvalue.seq fun t ht => .exec (t := ((t.pop .t0).set .t0 word').next.push .t0) ?_ ?_
  · have hword : t.mem (s.reg .sp) = word := ht.value
    cases op <;>
      simp_all [Image.exec, UnaryOp.operation, UnaryOp.apply, ht.sp_add, hsits.aligned,
        AluOp.eval, State.source]
  · exact ((ht.pop hsits .t0 (by decide)).set .t0 word' (by decide) (by decide)).next.push
      (by omega) (by simp [Setting.Represents])

theorem assign_computes {id : Ident} {value : Expr} {location : Location} {link : SymbolId}
    {word : Word} {middle : Store} (hlocation : S.symbols.location? id = some location)
    (hplace : S.Place link (S.locate location))
    (hvalue : value.Computes S store (.word word) middle) :
    (assign (.name id) value).Computes S store (.word word)
      (Function.update middle link word) := by
  intro c s hc hpool hsits hroom
  simp only [peak] at hroom
  have hpool' : (c.after (value.script c)).strings.Le S.pool := by simpa [script] using hpool
  have hfirst := (hsits.inert (c.isInert_note "ASSIGN")).seq fun t ht =>
    (hvalue c t hc hpool' ht.sits (by rw [ht.sp]; omega)).mono fun u hu => ht.yields hu
  have hsecond : S.image.Reaches (c.note "ASSIGN" ++ value.script c ++ c.loadAddress id) s
      fun u => ∃ t, S.Yields (.word word) middle s t ∧
        S.Yields (.word (S.locate location)) middle t u := by
    refine hfirst.seq fun t ht => ?_
    have hsp := ht.sp
    have hrests := (Setting.Rests.refl ht.sits).set .t0 (S.locate location) (by decide) (by decide)
    exact .exec (Setting.exec_loadAddress (hc ▸ hlocation) ht.sits)
      ⟨t, ht, hrests.next.push (by rw [hsp]; bv_omega) (by simp [Setting.Represents])⟩
  refine hsecond.seq ?_
  rintro u ⟨t, ht, hu⟩
  have hpopped := ht.rests hsits (by omega) (hu.pop ht.sits .t0 (by decide))
  have haddress : u.mem (t.reg .sp) = S.locate location := hu.value
  have hword : u.mem (s.reg .sp) = word := hpopped.value
  refine .exec (t := (((u.pop .t0).pop .t1).store (S.locate location) word).next.push .t1) ?_ ?_
  · simp [Image.exec, Image.address, hu.sp_add, ht.sp_add, ht.sits.aligned, hsits.aligned,
      haddress, hword, S.aligned hplace]
  · have hstored := (hpopped.pop hsits .t1 (by decide)).assign hplace word
    refine hstored.next.push (by omega) ?_
    simp [Setting.Represents, hu.sp_add, ht.sp_add, hword]

theorem strict_computes {op : BinaryOp} {alu : AluOp} {text : String}
    (hcode : op.code = .strict alu text) {left right : Expr} {a b : Value} {middle : Store}
    {word : Word} (hleft : left.Computes S store a middle)
    (hright : right.Computes S middle b store')
    (halu : ∀ x y, S.Represents x a → S.Represents y b → alu.eval x y = some word) :
    (binary op left right).Computes S store (.word word) store' := by
  intro c s hc hpool hsits hroom
  simp only [peak, hcode] at hroom
  rw [script, hcode] at hpool ⊢
  simp only [Context.after_append, Context.after_note, Context.after_cons, Action.context_pop,
    Action.context_op, Action.context_push, Context.after_nil] at hpool
  have hpool' := (right.strings_le _).trans hpool
  have hfirst := (hsits.inert (c.isInert_note text)).seq fun t ht =>
    (hleft c t hc hpool' ht.sits (by rw [ht.sp]; omega)).mono fun u hu => ht.yields hu
  have hsecond : S.image.Reaches (c.note text ++ left.script c ++
      right.script (c.after (left.script c))) s
      fun u => ∃ t, S.Yields a middle s t ∧ S.Yields b store' t u := by
    refine hfirst.seq fun t ht => ?_
    have hsp := ht.sp
    exact (hright _ t (by simpa using hc) hpool ht.sits (by rw [hsp]; bv_omega)).mono
      fun u hu => ⟨t, ht, hu⟩
  refine hsecond.seq ?_
  rintro u ⟨t, ht, hu⟩
  have hpopped := ht.rests hsits (by omega) (hu.pop ht.sits .t1 (by decide))
  have hword := halu _ _ hpopped.value hu.value
  refine .exec (t := (((u.pop .t1).pop .t0).set .t0 word).next.push .t0) ?_ ?_
  · simp only [State.mem_pop] at hword
    simp [Image.exec, State.source, hu.sp_add, ht.sp_add, ht.sits.aligned, hsits.aligned, hword]
  · exact ((hpopped.pop hsits .t0 (by decide)).set .t0 word (by decide) (by decide)).next.push
      (by omega) (by simp [Setting.Represents])

section Skipping

variable {op : BinaryOp} {decisive : Bool} {text : String}
  (hcode : op.code = .skipping (if decisive then 1 else 0) text) {left right : Expr} {word : Word}
  {middle : Store} (hleft : left.Computes S store (.word word) middle)
include hcode hleft

theorem skipping_left {c : Context} {s : State} (hc : c.symbols = S.symbols)
    (hpool : (c.after ((binary op left right).script c)).strings.Le S.pool)
    (hsits : S.Sits store s)
    (hroom : S.floor + 4 * (binary op left right).peak S.symbols ≤ (s.reg .sp).toNat) :
    S.image.Reaches ([Action.mint] ++ c.note text ++ left.script (c.minted 1)) s
      (S.Yields (.word word) middle s) := by
  simp only [peak, hcode] at hroom
  have hpool' : ((c.minted 1).after (left.script (c.minted 1))).strings.Le S.pool := by
    rw [script, hcode] at hpool
    simp only [Context.after_append, Context.after_note, Context.after_cons, Action.context_pop,
      Action.context_op, Action.context_push, Action.context_mint, Action.context_emit,
      Context.after_nil] at hpool
    exact (right.strings_le _).trans hpool
  have hinert : ∀ action ∈ [Action.mint] ++ c.note text, action.isInert := by
    simpa [Action.isInert] using c.isInert_note text
  exact (hsits.inert hinert).seq fun t ht =>
    (hleft (c.minted 1) t hc hpool' ht.sits (by rw [ht.sp]; omega)).mono fun u hu => ht.yields hu

/-- The left operand decides: the branch is taken with the result in the register. -/
theorem skipping_decided (hpeak : 1 ≤ left.peak S.symbols) (hcanonical : word = 0 ∨ word = 1)
    (hword : (word != 0) = decisive) :
    (binary op left right).Computes S store (.word (.flag decisive)) middle := by
  intro c s hc hpool hsits hroom
  have hfirst := skipping_left hcode hleft hc hpool hsits hroom
  simp only [peak, hcode] at hroom
  subst hword
  rw [Word.flag_ne_zero hcanonical]
  let head := left.script (c.minted 1)
  let done := Context.synthetic c.labels
  have hscript : (binary op left right).script c = ([Action.mint] ++ c.note text ++ head) ++
      ([Action.pop .t0] ++ ([Action.op (.beq .t0 (if word != 0 then 1 else 0) done)] ++
        (right.script ((c.minted 1).after head) ++ [Action.pop .t0]) ++
        ([Action.emit (.label done none)] ++ [Action.push .t0]))) := by
    simp [script, hcode, head, done]
  rw [hscript]
  refine hfirst.seq fun t ht => ?_
  have hvalue : t.mem (s.reg .sp) = word := ht.value
  refine (ht.reaches_pop hsits .t0 (by decide)).seq ?_
  rintro u rfl
  refine .skip (fun pc hpc => ?_) fun pc => .exec
    (t := (((t.pop .t0).jump pc).next).push .t0) ?_ ?_
  · have htaken : (t.pop .t0).reg .t0 = .ofInt 32 (if word != 0 then 1 else 0) := by
      rcases hcanonical with rfl | rfl <;> simpa [ht.sp_add] using hvalue
    rw [Image.exec, if_pos htaken, hpc]
    rfl
  · simp [ht.sp_add, hsits.aligned]
  · refine ((ht.pop hsits .t0 (by decide)).jump pc).next.push (by omega) ?_
    simpa [Setting.Represents, ht.sp_add] using hvalue

/-- The left operand does not decide: the result is that of the right operand. -/
theorem skipping_undecided (hpeak : 1 ≤ left.peak S.symbols)
    (hword : (word != 0) ≠ decisive) (hright : right.Computes S middle result store') :
    (binary op left right).Computes S store result store' := by
  intro c s hc hpool hsits hroom
  have hfirst := skipping_left hcode hleft hc hpool hsits hroom
  simp only [peak, hcode] at hroom
  rw [script, hcode] at hpool ⊢
  simp only [Context.after_append, Context.after_note, Context.after_cons, Action.context_pop,
    Action.context_op, Action.context_push, Action.context_mint, Action.context_emit,
    Context.after_nil] at hpool
  have hbranch : S.image.Reaches ([Action.mint] ++ c.note text ++ left.script (c.minted 1) ++
      [Action.pop .t0, .op (.beq .t0 (if decisive then 1 else 0) (Context.synthetic c.labels))]) s
      (S.Rests middle s) := by
    refine hfirst.seq fun t ht => .exec (t := (t.pop .t0).next) ?_
      (ht.pop hsits .t0 (by decide)).next
    have hvalue : t.mem (s.reg .sp) = word := ht.value
    have hnot : word ≠ .ofInt 32 (if decisive then 1 else 0) := by
      rintro rfl
      cases decisive <;> exact hword rfl
    simp [Image.exec, ht.sp_add, hsits.aligned, hvalue, hnot]
  have hsecond := hbranch.seq fun t ht =>
    (hright _ t (by simpa using hc) hpool ht.sits (by rw [ht.sp]; omega)).mono
      fun u hu => ht.yields hu
  refine hsecond.seq fun t ht => .exec (t := (t.pop .t0).next.push .t0) ?_ ?_
  · simp [ht.sp_add, hsits.aligned]
  · exact (ht.pop hsits .t0 (by decide)).next.push (by omega) (ht.reg_pop .t0 (by decide))

end Skipping

/-- Two words that stand for texts are equal exactly if the texts are. -/
theorem represents_text_inj {x y : Word} {a b : String} (hx : S.Represents x (.text a))
    (hy : S.Represents y (.text b)) : x = y ↔ a = b := by
  obtain ⟨label, hlabel, rfl⟩ := hx
  obtain ⟨label', hlabel', rfl⟩ := hy
  constructor
  · intro heq
    obtain ⟨_, hmem⟩ := S.texts hlabel
    obtain ⟨_, hmem'⟩ := S.texts hlabel'
    obtain rfl := S.image.apart hmem hmem' heq
    cases Image.instr?_unique hmem hmem'
    rfl
  · rintro rfl
    obtain rfl := Option.some.inj (hlabel.symm.trans hlabel')
    rfl

/-- The operation of a strict operator computes it on the words that stand for its operands. -/
theorem alu_apply {op : BinaryOp} (hop : op.decides? = none) {a b : Value} {word : Word}
    (h : op.apply a b = some word) : ∃ alu text, op.code = .strict alu text ∧
      ∀ x y, S.Represents x a → S.Represents y b → alu.eval x y = some word := by
  match a, b, h with
  | .word a, .word b, h =>
      obtain ⟨alu, text, hcode, heval⟩ := BinaryOp.code_of_strict hop
      exact ⟨alu, text, hcode, fun x y hx hy => hx ▸ hy ▸ heval a b word h⟩
  | .text a, .text b, h =>
      rcases BinaryOp.code_of_onTexts h with ⟨⟨text, hcode⟩, rfl⟩ | ⟨⟨text, hcode⟩, rfl⟩
      · refine ⟨.seq, text, hcode, fun x y hx hy => ?_⟩
        rw [AluOp.eval, beq_eq_beq.mpr (represents_text_inj hx hy)]
      · refine ⟨.sne, text, hcode, fun x y hx hy => ?_⟩
        rw [AluOp.eval, bne, beq_eq_beq.mpr (represents_text_inj hx hy), bne]
  | .word _, .text _, h | .text _, .word _, h => cases h

/-- The code of a well-typed expression computes its value. -/
theorem computes {e : Expr} {ty : Ty} (hty : e.HasType S.symbols ty)
    (hvalue : ty.isStorable ∨ ty.isString) (hcovers : S.Covers e.uses)
    (hcanonical : S.Canonical store) (h : e.eval store = some (result, store')) :
    e.Computes S store result store' := by
  induction e using Expr.induction generalizing ty store store' result with
  | int value pos =>
      cases h
      have hword : value.toBitVec = .ofInt 32 value.toInt := BitVec.ofInt_toInt.symm
      rw [hword]
      exact constant_computes (fun _ => rfl) rfl
  | str text pos =>
      cases h
      exact str_computes
  | bool value pos =>
      cases h
      have hword : Word.flag value = .ofInt 32 (if value then 1 else 0) := by cases value <;> rfl
      rw [hword]
      exact constant_computes (fun _ => rfl) rfl
  | name id =>
      obtain ⟨link, location, _, hlink, hlocation, hplace, _, _⟩ :=
        names_of_hasType hty hvalue hcovers
      simp only [eval, hlink, Option.map_some, Option.some.injEq, Prod.mk.injEq] at h
      obtain ⟨rfl, rfl⟩ := h
      exact name_computes hlocation hplace
  | field base id _ => cases h
  | call callee args _ => cases h
  | assign target value _ ih =>
      obtain ⟨id, link, word, middle, rfl, hlink, heval, rfl, rfl⟩ := eval_assign h
      rw [uses_assign] at hcovers
      cases hty with
      | assign htarget hvalueTy _ =>
          obtain ⟨link', location, _, hlink', hlocation, hplace, _, _⟩ :=
            names_of_hasType htarget hvalue hcovers.append.1
          obtain rfl := Option.some.inj (hlink.symm.trans hlink')
          exact assign_computes hlocation hplace
            (ih hvalueTy hvalue hcovers.append.2 hcanonical heval)
  | unary op operand ih =>
      obtain ⟨word, word', heval, happly, rfl⟩ := eval_unary h
      rw [uses_unary] at hcovers
      have hpeak := one_le_peak heval S.symbols
      cases hty with
      | neg hoperand | not hoperand =>
          exact unary_computes hpeak (ih hoperand (.inl rfl) hcovers hcanonical heval) happly
  | binary op left right ihleft ihright =>
      rw [uses_binary] at hcovers
      have hstrict : ∀ {ty' : Ty}, op.family ≠ .logical → left.HasType S.symbols ty' →
          right.HasType S.symbols ty' → (ty'.isStorable ∨ ty'.isString) →
          (binary op left right).Computes S store result store' := by
        intro ty' hop hleft hright hvalue'
        have hdecides := BinaryOp.decides?_eq_none hop
        obtain ⟨a, middle, b, word, hevalLeft, hevalRight, happly, rfl⟩ := eval_strict hdecides h
        have hmiddle := (eval_fits hleft hvalue' hcovers.append.1 hcanonical hevalLeft).2
        obtain ⟨alu, text, hcode, halu⟩ := alu_apply hdecides happly
        exact strict_computes hcode
          (ihleft hleft hvalue' hcovers.append.1 hcanonical hevalLeft)
          (ihright hright hvalue' hcovers.append.2 hmiddle hevalRight) halu
      cases hty with
      | arithmetic hop hleft hright => exact hstrict (by simp [hop]) hleft hright (.inl rfl)
      | relational hop hleft hright => exact hstrict (by simp [hop]) hleft hright (.inl rfl)
      | equality hop hleft hright hcomparable =>
          exact hstrict (by simp [hop]) hleft hright (Ty.isStorable_or_isString hcomparable)
      | logical hop hleft hright =>
          obtain ⟨decisive, hdecides⟩ := BinaryOp.decides?_of_logical hop
          obtain ⟨text, hcode⟩ := BinaryOp.code_of_skipping hdecides
          obtain ⟨word, middle, hevalLeft, hcase⟩ := eval_skipping hdecides h
          obtain ⟨hfits, hmiddle⟩ :=
            eval_fits hleft (.inl rfl) hcovers.append.1 hcanonical hevalLeft
          have hleft := ihleft hleft (.inl rfl) hcovers.append.1 hcanonical hevalLeft
          have hpeak := one_le_peak hevalLeft S.symbols
          rcases hcase with ⟨hword, rfl, rfl⟩ | ⟨hword, hevalRight⟩
          · exact skipping_decided hcode hleft hpeak (hfits.2 rfl) hword
          · exact skipping_undecided hcode hleft hpeak hword
              (ihright hright (.inl rfl) hcovers.append.2 hmiddle hevalRight)

end Expr

end StackMips
