import StackMips.Proofs.ErrorTypes
import StackMips.Proofs.Simulation.Block
import StackMips.Proofs.Simulation.Separation

/-!
# Code of expressions

An expression without calls and field accesses has a value unless its evaluation traps, and its code
pushes this value.  That takes a quiet check of the expression alone: other parts of the program may
have been reported, and declarations may have been rejected.
-/

namespace StackMips

open Mips

/-! ## Operators on values -/

namespace Expr

variable {store middle store' : Store}

theorem eval_unary_eq {op : UnaryOp} {operand : Expr} {word : Word}
    (h : operand.eval store = some (.word word, store')) :
    (unary op operand).eval store = (op.apply word).map fun word' => (.word word', store') := by
  simp only [eval, h, Option.bind_eq_bind, Option.bind_some, Value.word?]
  cases op.apply word <;> rfl

theorem eval_strict_eq {op : BinaryOp} (hop : op.decides? = none) {left right : Expr}
    {a b : Value} (hleft : left.eval store = some (a, middle))
    (hright : right.eval middle = some (b, store')) :
    (binary op left right).eval store = (op.apply a b).map fun word => (.word word, store') := by
  simp only [eval, hleft, hop, hright, Option.bind_eq_bind, Option.bind_some]
  cases op.apply a b <;> rfl

theorem eval_skipping_eq {op : BinaryOp} {decisive : Bool} (hop : op.decides? = some decisive)
    {left right : Expr} {word : Word} (hleft : left.eval store = some (.word word, middle)) :
    (binary op left right).eval store =
      if (word != 0) = decisive then some (.word (.flag decisive), middle)
      else right.eval middle := by
  simp only [eval, hleft, hop, Option.bind_eq_bind, Option.bind_some, Value.word?, beq_iff_eq]

end Expr

/-! ## Traps -/

/-- Evaluation arrives at an operation that has no result: the negation of the smallest word, or a
division by 0 or of the smallest word by -1. -/
inductive Expr.Traps : Expr → Store → Prop
  | assign {target value : Expr} {store : Store} (h : Traps value store) :
      Traps (.assign target value) store
  | operand {op : UnaryOp} {operand : Expr} {store : Store} (h : Traps operand store) :
      Traps (.unary op operand) store
  | negation {operand : Expr} {store store' : Store}
      (h : operand.eval store = some (.word (.intMin 32), store')) :
      Traps (.unary .neg operand) store
  | left {op : BinaryOp} {left right : Expr} {store : Store} (h : Traps left store) :
      Traps (.binary op left right) store
  | right {op : BinaryOp} {left right : Expr} {store middle : Store} {value : Value}
      (hleft : left.eval store = some (value, middle))
      (hop : ∀ word, value = .word word → op.decides? ≠ some (word != 0))
      (h : Traps right middle) : Traps (.binary op left right) store
  | quotient {left right : Expr} {store middle store' : Store} {a b : Word}
      (hleft : left.eval store = some (.word a, middle))
      (hright : right.eval middle = some (.word b, store'))
      (h : b = 0 ∨ a = .intMin 32 ∧ b = -1) : Traps (.binary .div left right) store

namespace Expr

/-- What traps has no value. -/
theorem Traps.eval_eq_none {e : Expr} {store : Store} (h : e.Traps store) :
    e.eval store = none := by
  induction h with
  | assign _ ih | operand _ ih | left _ ih => simp [eval, ih]
  | negation h => simp [eval_unary_eq h, UnaryOp.apply]
  | @right op _ _ _ _ value hleft hop _ ih =>
      cases hdecides : op.decides? with
      | none => simp [eval, hleft, hdecides, ih]
      | some decisive =>
          cases value with
          | word word =>
              rw [eval_skipping_eq hdecides hleft, if_neg, ih]
              rintro rfl
              exact hop word rfl hdecides
          | text text => simp [eval, hleft, hdecides, Value.word?]
  | quotient hleft hright h =>
      rw [eval_strict_eq rfl hleft hright, BinaryOp.apply, BinaryOp.onWords, if_pos h]
      rfl

end Expr

/-! ## Operators have results -/

theorem Value.Fits.exists_word {ty : Ty} {value : Value} (h : value.Fits ty)
    (hty : ty.isString = false) : ∃ word, value = .word word := by
  cases value with
  | word word => exact ⟨word, rfl⟩
  | text text => simp_all [Value.Fits]

theorem Value.Fits.exists_text {ty : Ty} {value : Value} (h : value.Fits ty) (hty : ty.isString) :
    ∃ text, value = .text text := by
  cases value with
  | word word => simp_all [Value.Fits]
  | text text => exact ⟨text, rfl⟩

theorem UnaryOp.apply_or (op : UnaryOp) (word : Word) :
    (∃ word', op.apply word = some word') ∨ op = .neg ∧ word = .intMin 32 := by
  cases op with
  | not => exact .inl ⟨_, rfl⟩
  | neg =>
      by_cases hword : word = .intMin 32
      · exact .inr ⟨rfl, hword⟩
      · exact .inl ⟨-word, by simp [apply, hword]⟩

/-- An operator that looks at both operands has a result for operands of one type, except for the
quotients that are not words. -/
theorem BinaryOp.apply_or {op : BinaryOp} (hop : op.decides? = none) {ty : Ty}
    (hty : ty.isString → op.family = .equality) {a b : Value} (ha : a.Fits ty) (hb : b.Fits ty) :
    (∃ word, op.apply a b = some word) ∨
      op = .div ∧ ∃ x y : Word, a = .word x ∧ b = .word y ∧ (y = 0 ∨ x = .intMin 32 ∧ y = -1) := by
  cases hstring : ty.isString with
  | true =>
      obtain ⟨x, rfl⟩ := ha.exists_text hstring
      obtain ⟨y, rfl⟩ := hb.exists_text hstring
      have hequality := hty hstring
      cases op <;> first | exact .inl ⟨_, rfl⟩ | cases hequality
  | false =>
      obtain ⟨x, rfl⟩ := ha.exists_word hstring
      obtain ⟨y, rfl⟩ := hb.exists_word hstring
      cases op with
      | div =>
          by_cases hquotient : y = 0 ∨ x = .intMin 32 ∧ y = -1
          · exact .inr ⟨rfl, x, y, rfl, rfl, hquotient⟩
          · exact .inl ⟨x.sdiv y, by rw [apply, onWords, if_neg hquotient]⟩
      | and | or => cases hop
      | add | sub | mul | eq | ne | lt | gt | le | ge => exact .inl ⟨_, rfl⟩

/-! ## Evaluation has a result unless it traps -/

namespace Expr

variable {S : Setting}

def Ends (S : Setting) (e : Expr) : Prop :=
  ∀ store, S.Canonical store →
    (∃ result store', e.eval store = some (result, store')) ∨ e.Traps store

theorem assign_ends {id : Ident} {value : Expr} {ty : Ty}
    (hty : (assign (.name id) value).HasType S.symbols ty)
    (hvalue : ty.isStorable ∨ ty.isString) (hcovers : S.Covers (assign (.name id) value).uses)
    (h : value.Ends S) : (assign (.name id) value).Ends S := by
  intro store hcanonical
  rw [uses_assign] at hcovers
  cases hty with
  | assign htarget hsource _ =>
      rcases h store hcanonical with ⟨result, middle, heval⟩ | htraps
      · obtain ⟨link, _, symbol, hlink, _, _, hsymbol, rfl⟩ :=
          names_of_hasType htarget hvalue hcovers.append.1
        have hfits := (eval_fits hsource hvalue hcovers.append.2 hcanonical heval).1
        obtain ⟨word, rfl⟩ := hfits.exists_word (S.typed.ty link symbol hsymbol).2.2
        exact .inl ⟨.word word, Function.update middle link word,
          by simp [eval, heval, Value.word?, ident?, hlink]⟩
      · exact .inr (.assign htraps)

theorem unary_ends {op : UnaryOp} {operand : Expr} {ty : Ty}
    (hty : operand.HasType S.symbols ty) (hstorable : ty.isStorable)
    (hcovers : S.Covers operand.uses) (h : operand.Ends S) : (unary op operand).Ends S := by
  intro store hcanonical
  rcases h store hcanonical with ⟨result, store', heval⟩ | htraps
  · have hfits := (eval_fits hty (.inl hstorable) hcovers hcanonical heval).1
    obtain ⟨word, rfl⟩ := hfits.exists_word (Ty.isString_of_isStorable hstorable)
    rcases op.apply_or word with ⟨word', happly⟩ | ⟨rfl, rfl⟩
    · exact .inl ⟨.word word', store', by rw [eval_unary_eq heval, happly, Option.map_some]⟩
    · exact .inr (.negation heval)
  · exact .inr (.operand htraps)

section Binary

variable {op : BinaryOp} {left right : Expr} {ty : Ty} (hleftTy : left.HasType S.symbols ty)
  (hcovers : S.Covers (left.uses ++ right.uses)) (hleft : left.Ends S) (hright : right.Ends S)
include hleftTy hcovers hleft hright

theorem strict_ends (hrightTy : right.HasType S.symbols ty) (hop : op.decides? = none)
    (hvalue : ty.isStorable ∨ ty.isString) (hequality : ty.isString → op.family = .equality) :
    (binary op left right).Ends S := by
  intro store hcanonical
  rcases hleft store hcanonical with ⟨a, middle, hevalLeft⟩ | htraps
  · obtain ⟨ha, hmiddle⟩ := eval_fits hleftTy hvalue hcovers.append.1 hcanonical hevalLeft
    rcases hright middle hmiddle with ⟨b, store', hevalRight⟩ | htraps
    · have hb := (eval_fits hrightTy hvalue hcovers.append.2 hmiddle hevalRight).1
      rcases BinaryOp.apply_or hop hequality ha hb with
        ⟨word, happly⟩ | ⟨rfl, x, y, rfl, rfl, hquotient⟩
      · exact .inl ⟨.word word, store',
          by rw [eval_strict_eq hop hevalLeft hevalRight, happly, Option.map_some]⟩
      · exact .inr (.quotient hevalLeft hevalRight hquotient)
    · exact .inr (.right hevalLeft (by simp [hop]) htraps)
  · exact .inr (.left htraps)

theorem skipping_ends {decisive : Bool} (hop : op.decides? = some decisive)
    (hstorable : ty.isStorable) : (binary op left right).Ends S := by
  intro store hcanonical
  rcases hleft store hcanonical with ⟨a, middle, hevalLeft⟩ | htraps
  · obtain ⟨ha, hmiddle⟩ :=
      eval_fits hleftTy (.inl hstorable) hcovers.append.1 hcanonical hevalLeft
    obtain ⟨word, rfl⟩ := ha.exists_word (Ty.isString_of_isStorable hstorable)
    by_cases hword : (word != 0) = decisive
    · exact .inl ⟨.word (.flag decisive), middle,
        by rw [eval_skipping_eq hop hevalLeft, if_pos hword]⟩
    · rcases hright middle hmiddle with ⟨b, store', hevalRight⟩ | htraps
      · exact .inl ⟨b, store', by rw [eval_skipping_eq hop hevalLeft, if_neg hword, hevalRight]⟩
      · refine .inr (.right hevalLeft ?_ htraps)
        rintro _ ⟨⟩ hdecides
        exact hword (Option.some.inj (hdecides.symm.trans hop))
  · exact .inr (.left htraps)

end Binary

/-- An expression without calls and field accesses has a value unless it traps. -/
theorem ends {e : Expr} {ty : Ty} (hty : e.HasType S.symbols ty)
    (hvalue : ty.isStorable ∨ ty.isString) (hcovers : S.Covers e.uses) (hgrammar : e.InGrammar)
    (hblocked : e.blocked = []) (hcalls : e.calls = []) : e.Ends S := by
  induction e using Expr.induction generalizing ty with
  | int _ _ | str _ _ | bool _ _ => exact fun store _ => .inl ⟨_, store, rfl⟩
  | name id =>
      obtain ⟨link, _, _, hlink, _⟩ := names_of_hasType hty hvalue hcovers
      exact fun store _ => .inl ⟨.word (store link), store, by simp [eval, hlink]⟩
  | field base id _ => cases hblocked
  | call callee args _ => simp at hcalls
  | assign target value _ ih =>
      obtain ⟨hvalueBlocked, htargetBlocked⟩ := List.append_eq_nil_iff.mp hblocked
      obtain ⟨hlocation, _, hvalueGrammar⟩ := hgrammar.assign
      obtain ⟨id, rfl⟩ := eq_name_of_blockedTarget hlocation htargetBlocked
      refine assign_ends hty hvalue hcovers ?_
      rw [uses_assign] at hcovers
      rw [calls_assign, List.append_eq_nil_iff] at hcalls
      cases hty with
      | assign _ hsource _ =>
          exact ih hsource hvalue hcovers.append.2 hvalueGrammar hvalueBlocked hcalls.2
  | unary op operand ih =>
      rw [uses_unary] at hcovers
      rw [calls_unary] at hcalls
      cases hty with
      | neg hoperand | not hoperand =>
          exact unary_ends hoperand rfl hcovers
            (ih hoperand (.inl rfl) hcovers hgrammar.unary hblocked hcalls)
  | binary op left right ihleft ihright =>
      obtain ⟨hleftBlocked, hrightBlocked⟩ := List.append_eq_nil_iff.mp hblocked
      rw [uses_binary] at hcovers
      rw [calls_binary, List.append_eq_nil_iff] at hcalls
      have hleft := fun {ty'} (h : left.HasType S.symbols ty') hvalue' =>
        ihleft h hvalue' hcovers.append.1 hgrammar.binary.1 hleftBlocked hcalls.1
      have hright := fun {ty'} (h : right.HasType S.symbols ty') hvalue' =>
        ihright h hvalue' hcovers.append.2 hgrammar.binary.2 hrightBlocked hcalls.2
      cases hty with
      | arithmetic hop hl hr | relational hop hl hr =>
          exact strict_ends hl hcovers (hleft hl (.inl rfl)) (hright hr (.inl rfl)) hr
            (BinaryOp.decides?_eq_none (by simp [hop])) (.inl rfl) (by rintro ⟨⟩)
      | equality hop hl hr hcomparable =>
          have hvalue' := Ty.isStorable_or_isString hcomparable
          exact strict_ends hl hcovers (hleft hl hvalue') (hright hr hvalue') hr
            (BinaryOp.decides?_eq_none (by simp [hop])) hvalue' fun _ => hop
      | logical hop hl hr =>
          obtain ⟨decisive, hdecides⟩ := BinaryOp.decides?_of_logical hop
          exact skipping_ends hl hcovers (hleft hl (.inl rfl)) (hright hr (.inl rfl)) hdecides rfl

/-- Only a name of a function or a struct definition has a type that values do not have. -/
theorem HasType.isValue_or {symbols : Arena} (hsymbols : symbols.Typed) {e : Expr} {ty : Ty}
    (h : e.HasType symbols ty) (hgrammar : e.InGrammar) (hblocked : e.blocked = [])
    (hcalls : e.calls = []) :
    (∃ id, e = .name id ∧ (ty.isFunction ∨ ty.isStructDef)) ∨ ty.isValue := by
  cases h with
  | @name id _ hid =>
      obtain ⟨herror, hvoid, -⟩ := hsymbols.of_ty? hid
      cases ty with
      | error => cases herror
      | void => cases hvoid
      | function _ _ => exact .inl ⟨id, rfl, .inl rfl⟩
      | structDef _ => exact .inl ⟨id, rfl, .inr rfl⟩
      | int | bool | string | struct _ => exact .inr rfl
  | field _ => cases hblocked
  | call _ _ _ => simp at hcalls
  | assign htarget _ hassignable =>
      have hreadable : ty.isReadable := by cases ty <;> first | rfl | cases hassignable
      exact .inr (Stmt.isValue_of_isReadable hsymbols hgrammar.assign.1 htarget hreadable)
  | int _ _ | str _ _ | bool _ _ | neg _ | not _ | arithmetic _ _ _ | logical _ _ _
  | relational _ _ _ | equality _ _ _ _ => exact .inr rfl

end Expr

/-! ## Code -/

/-- An image that has the texts that are known so far, and the global variables of the function. -/
structure Generator.Supplied (g : Generator) (fn : FnDecl) (image : Image) : Prop where
  texts : ∀ text label, g.context.strings.lookup text = some label →
    ∃ comment, .label label (some ⟨.asciiz text, comment⟩) ∈ image.lines
  globals : fn.Stored image g.context.symbols

/-- A word stands for a value: it is the word, or the address of the text. -/
def Mips.Image.Shows (image : Image) (word : Word) : Value → Prop
  | .word word' => word = word'
  | .text text => image.textAt word = some text

/-- The machine got from one state to another by evaluating an expression.  It is at the line
`behind`, the value is on top of the stack, the variables of the function hold what they hold in the
store, and all else above the stack is as it was. -/
structure FnDecl.Computed (image : Image) (symbols : Arena) (fn : FnDecl) (floor behind : Nat)
    (value : Value) (store : Store) (s t : State) : Prop where
  steps : image.Steps s t
  pc : t.pc = behind
  sp : t.reg .sp = s.reg .sp - 4#32
  shows : image.Shows (t.mem (s.reg .sp)) value
  fp : t.reg .fp = s.reg .fp
  agrees : fn.Agrees image symbols ⟨store, s.input⟩ t
  mem : ∀ a : Word, (s.reg .sp).toNat < a.toNat ∨ a.toNat ≤ floor →
    (∀ link, ¬fn.Place image symbols (s.reg .fp) link a) → t.mem a = s.mem a
  events : t.events = s.events

theorem Setting.Represents.shows {S : Setting} {word : Word} {value : Value}
    (h : S.Represents word value) : S.image.Shows word value := by
  cases value with
  | word _ => exact h
  | text text =>
      obtain ⟨label, hlookup, rfl⟩ := h
      obtain ⟨comment, hmem⟩ := S.texts hlookup
      exact Image.textAt_of_mem hmem

section Code

variable {symbols : Arena} {fn : FnDecl} (hseparates : fn.Separates symbols)
  (htyped : symbols.Typed) {e : Expr} {ty : Ty} (hty : e.HasType symbols ty)
  (hvalue : ty.isValue) (hgrammar : e.InGrammar) (hfield : e.hasField = false) {g : Generator}
  (hg : g.context.symbols = symbols)
include htyped hty hvalue hgrammar hfield hg

theorem Expr.lower_eq : e.lower g = .ok () (g.perform (e.script g.context)) := by
  have hperforms := (Expr.lowers htyped ⟨ty, hty, hvalue⟩ hgrammar).performs g hg
  rwa [(Expr.blocked_eq_nil_iff hgrammar).mpr hfield] at hperforms

include hseparates

/-- The code of an expression computes its value, in the frame of a function that uses its names. -/
theorem FnDecl.computed_of_hasType
    (hvariables : ∀ link symbol, symbols.get? link = some symbol → symbol.ty.isStorable →
      symbol.IsVariable) (huses : e.uses ⊆ fn.body.uses) (hcalls : e.calls = [])
    {image : Image} (hsupplied : g.Supplied fn image) {floor : Nat} {s : State}
    (hat : image.At s.pc (e.script g.context).lines) (hclear : fn.Clear image symbols floor s)
    (hroom : floor + 4 * e.peak symbols ≤ (s.reg .sp).toNat) {store : Store}
    (hagrees : fn.Agrees image symbols ⟨store, s.input⟩ s) (htraps : ¬e.Traps store) :
    ∃ value store' t, e.eval store = some (value, store') ∧
      fn.Computed image symbols floor (s.pc + (e.script g.context).lines.length) value store' s
        t := by
  have hstored : fn.Stored image symbols := hg ▸ hsupplied.globals
  have hstores := Script.stores_composes.expr e g.context
  let S := FnDecl.setting hseparates hclear htyped hstored _ (hstores.texts hat hsupplied.texts)
  have hbody : S.Covers fn.body.uses :=
    FnDecl.covers_uses hseparates (fun hplace => hplace) hvariables
  have hcovers := hbody.mono huses
  have hvalue' : ty.isStorable ∨ ty.isString := by simpa [Ty.isValue] using hvalue
  have hcanonical : S.Canonical store := hagrees.booleans
  have hblocked := (Expr.blocked_eq_nil_iff hgrammar).mpr hfield
  obtain ⟨value, store', heval⟩ :=
    (Expr.ends hty hvalue' hcovers hgrammar hblocked hcalls store hcanonical).resolve_right htraps
  have hsits : S.Sits store s :=
    ⟨rfl, Nat.le_refl _, (by omega : floor ≤ _), hclear.sp_aligned,
      fun hplace => hagrees.values _ _ hplace⟩
  obtain ⟨t, hperforms, hyields⟩ :=
    Expr.computes hty hvalue' hcovers hcanonical heval g.context s hg (.refl _) hsits hroom hat
  have hfp : t.reg .fp = s.reg .fp := hyields.sits.fp
  refine ⟨value, store', t, heval, hperforms.steps, hperforms.pc, hyields.sp, hyields.value.shows,
    hfp, ⟨?_, ?_, hyields.keeps.input⟩, hyields.keeps.mem, hyields.keeps.events⟩
  · intro link a hplace
    rw [hfp] at hplace
    exact hyields.sits.holds hplace
  · intro link a hplace
    rw [hfp] at hplace
    exact (Expr.eval_fits hty hvalue' hcovers hcanonical heval).2 link a hplace

end Code

/-! ## Whole programs -/

namespace Program

/-- An expression without calls that is checked quietly has the type that checking computes, also
in a program with rejected declarations. -/
theorem hasType_of_check {program : Program} {options : Options} (hgrammar : program.InGrammar)
    {fn : FnDecl} (hfn : fn ∈ (program.linked { options }).program.functions) {e : Expr}
    (he : e ∈ fn.body.allExprs) {node : Expr} (hnode : node ∈ e.nodes) (hcalls : node.calls = [])
    {ty : Ty} (hcheck : node.check (program.linked { options }).context.symbols = .done ty [])
    (hty : ty ≠ .error) : node.HasType (program.linked { options }).context.symbols ty := by
  have hchained := (chained_linked hgrammar sound_empty hfn e he).of_nodes
    (Expr.nodes_subset hnode)
  have hfindings := Expr.findings (program.formed_after options) hchained hcheck
  refine Expr.check_sound_of (program.typed_linked options) (by simp [hcalls]) ?_ hcheck
  intro id hid
  by_contra hlink
  exact hty (hfindings.error_of_blamed hcalls (.inr ⟨id, hid, by simpa using hlink⟩))

/-- The generator emits code for every expression without calls and field accesses that has been
checked without a report.  Wherever this code is loaded, it computes the value of the expression
unless the evaluation traps, if the stack has room for the operands above `floor`.  Only a name of a
function or a struct definition has no value. -/
theorem lower_expr_computes {program : Program} {options : Options} (hgrammar : program.InGrammar)
    (hunlinked : program.Unlinked) :
    ∃ resolved reports, program.resolve { options } = .done resolved reports ∧
      ∀ fn ∈ resolved.program.functions, ∀ e ∈ fn.body.allExprs, ∀ node ∈ e.nodes,
        node.calls = [] → node.hasField = false →
        ∀ ty, node.check resolved.context.symbols = .done ty [] → ty ≠ .error →
          (∃ id, node = .name id ∧ (ty.isFunction ∨ ty.isStructDef)) ∨
          ∀ g : Generator, g.context.symbols = resolved.context.symbols →
            ∃ g' code, node.lower g = .ok () g' ∧ g'.lines.toList = g.lines.toList ++ code ∧
              ∀ (image : Image) (floor : Nat) (s : State) (store : Store), g.Supplied fn image →
                image.At s.pc code → fn.Clear image resolved.context.symbols floor s →
                floor + 4 * node.peak resolved.context.symbols ≤ (s.reg .sp).toNat →
                fn.Agrees image resolved.context.symbols ⟨store, s.input⟩ s →
                ¬node.Traps store →
                ∃ value store' t, node.eval store = some (value, store') ∧
                  fn.Computed image resolved.context.symbols floor (s.pc + code.length) value
                    store' s t := by
  refine ⟨_, _, resolve_eq sound_empty hgrammar hunlinked, ?_⟩
  intro fn hfn e he node hnode hcalls hfield ty hcheck herror
  have htyped := program.typed_linked options
  have hty := hasType_of_check hgrammar hfn he hnode hcalls hcheck herror
  have hnodeGrammar : node.InGrammar :=
    ((hgrammar.linked sound_empty fn hfn).allExprs e he).of_mem hnode
  have huses : node.uses ⊆ fn.body.uses := fun id hid =>
    List.mem_flatMap.mpr ⟨e, he, Expr.uses_subset_of_mem hnode hid⟩
  refine (hty.isValue_or htyped hnodeGrammar ((Expr.blocked_eq_nil_iff hnodeGrammar).mpr hfield)
    hcalls).imp_right fun hvalue g hg => ?_
  refine ⟨_, _, Expr.lower_eq htyped hty hvalue hnodeGrammar hfield hg,
    Generator.lines_perform _ _, ?_⟩
  intro image floor s store hsupplied hat hclear hroom hagrees htraps
  exact FnDecl.computed_of_hasType (separates_of_mem hfn) htyped hty hvalue hnodeGrammar hfield hg
    (fun link symbol hget => (program.formed_after options link symbol hget).isVariable) huses
    hcalls hsupplied hat hclear hroom hagrees htraps

/-- A test with an assignment inside, with the links of its names. -/
def balanceTest (total x : Option SymbolId) : Expr :=
  .binary .and
    (.binary .lt (.assign (.name ⟨"x", ⟨6, 9⟩, x⟩) (.binary .sub
      (.binary .div (.name ⟨"total", ⟨6, 13⟩, total⟩) (.int 2 ⟨6, 21⟩))
      (.name ⟨"x", ⟨6, 25⟩, x⟩))) (.int 0 ⟨6, 30⟩))
    (.binary .ne (.str "on" ⟨6, 35⟩) (.str "off" ⟨6, 43⟩))

def balanceMain (total main x ok : Option SymbolId) : FnDecl where
  returnType := .void
  id := ⟨"main", ⟨3, 6⟩, main⟩
  formals := []
  body := ⟨[⟨.int, ⟨"x", ⟨4, 7⟩, x⟩⟩, ⟨.bool, ⟨"ok", ⟨5, 8⟩, ok⟩⟩],
    [.assign (.name ⟨"ok", ⟨6, 3⟩, ok⟩) (balanceTest total x)]⟩

/-- The second declaration of `total` is rejected. -/
def balance : Program where
  decls := [.var ⟨.int, ⟨"total", ⟨1, 5⟩, none⟩⟩, .var ⟨.bool, ⟨"total", ⟨2, 6⟩, none⟩⟩,
    .fn (balanceMain none none none none)]

def balanceLinked : FnDecl := balanceMain (some 0) (some 1) (some 2) (some 3)

def balanceExpr : Expr :=
  .assign (.name ⟨"ok", ⟨6, 3⟩, some 3⟩) (balanceTest (some 0) (some 2))

def balanceGenerator : Generator where
  context := (balance.linked {}).context
  exit := "main_Exit"

def balanceCode : List Line :=
  match balanceExpr.lower balanceGenerator with
  | .ok _ g => g.lines.toList
  | .error _ _ => []

def balanceLines : List Line :=
  [.region .data, .label "_total" (some { operation := .space wordSize })] ++ balanceCode

def balanceImage : Image := .load balanceLines (by decide +kernel) (by decide +kernel)

/-- At first `total` is 7 and `x` is 5. -/
def balanceStore : Store
  | 0 => 7
  | 2 => 5
  | _ => 0

def balanceStart : State where
  pc := 2
  reg
    | .sp => 0x7fffefec
    | .fp => 0x7fffeffc
    | _ => 0
  mem a := if a = balanceImage.dataAddress "_total" then 7 else if a = 0x7fffeff4 then 5 else 0
  input := []
  events := []

theorem balance_agrees : balanceLinked.Agrees balanceImage (balance.linked {}).context.symbols
    ⟨balanceStore, balanceStart.input⟩ balanceStart := by
  have hmentions : ∀ id ∈ balanceLinked.mentions, ∀ link ∈ id.link,
      ∀ symbol ∈ (balance.linked {}).context.symbols.get? link,
        balanceStart.mem (balanceImage.locate (balanceStart.reg .fp) symbol.location) =
          balanceStore link ∧
        (symbol.ty.isBool → balanceStore link = 0 ∨ balanceStore link = 1) := by
    decide +kernel
  refine ⟨?_, ?_, rfl⟩
  · rintro link a ⟨id, hid, hlink, symbol, hget, -, rfl⟩
    exact (hmentions id hid link hlink symbol hget).1
  · rintro link a ⟨id, hid, hlink, symbol, hget, -, rfl⟩ symbol' hget' hbool
    cases hget.symm.trans hget'
    exact (hmentions id hid link hlink symbol hget).2 (by rw [hbool]; rfl)

theorem balance_clear : balanceLinked.Clear balanceImage (balance.linked {}).context.symbols
    0x7ffe0000 balanceStart where
  sp_aligned := by decide
  fp_aligned := by decide
  frame decl hdecl symbol hsymbol := by
    have hframe : ∀ decl ∈ balanceLinked.declared,
        ∀ symbol ∈ (balance.linked {}).context.symbols.symbol? decl.id,
          ((balanceStart.reg .sp).toNat : Int) <
            (balanceStart.reg .fp).toNat + symbol.offset := by
      decide +kernel
    exact hframe decl hdecl symbol hsymbol
  data id hid symbol hsymbol _ hglobal := by
    have hdata : ∀ id ∈ balanceLinked.body.uses,
        ((balance.linked {}).context.symbols.symbol? id).any Symbol.isGlobal →
        (balanceImage.dataAddress (globalLabel id.name)).toNat ≤ 0x7ffe0000 ∧
        ∀ decl ∈ balanceLinked.declared,
          ∀ symbol' ∈ (balance.linked {}).context.symbols.symbol? decl.id,
            balanceImage.dataAddress (globalLabel id.name) ≠
              balanceStart.reg .fp + .ofInt 32 symbol'.offset := by
      decide +kernel
    obtain ⟨hle, hne⟩ := hdata id hid (by simpa [hsymbol] using hglobal)
    exact ⟨.inr hle, hne⟩

theorem balance_supplied : balanceGenerator.Supplied balanceLinked balanceImage where
  texts _ _ h := by cases h
  globals id hid symbol hsymbol _ hglobal := by
    have hdata : ∀ id ∈ balanceLinked.body.uses,
        (balanceGenerator.context.symbols.symbol? id).any Symbol.isGlobal →
          .label (globalLabel id.name) (some ⟨.space wordSize, none⟩) ∈ balanceImage.lines := by
      decide +kernel
    exact ⟨none, hdata id hid (by simpa [hsymbol] using hglobal)⟩

/-- The assignments are made from the inside, and the result is left on the stack. -/
theorem lower_balance_computes : ∃ t, balanceImage.Steps balanceStart t ∧
    t.pc = balanceStart.pc + balanceCode.length ∧
    t.reg .sp = balanceStart.reg .sp - 4#32 ∧ t.mem (balanceStart.reg .sp) = 1 ∧
    t.mem 0x7fffeff4 = -2 ∧ t.mem 0x7fffeff0 = 1 := by
  have hresolve : balance.resolve {} =
      .done (balance.linked {}) (balance.resolutionReports {}) :=
    resolve_eq sound_empty (by decide) (by decide)
  obtain ⟨resolved, reports, h, hcomputes⟩ :=
    lower_expr_computes (show balance.InGrammar by decide) (by decide)
  obtain ⟨rfl, rfl⟩ := Reporting.done.inj (hresolve.symm.trans h)
  have hfn : balanceLinked ∈ (balance.linked {}).program.functions := .head _
  have hmem : balanceExpr ∈ balanceLinked.body.allExprs := .head _
  have hcheck : balanceExpr.check (balance.linked {}).context.symbols = .done .bool [] := rfl
  have heval : balanceExpr.eval balanceStore = some (.word 1,
      Function.update (Function.update balanceStore 2 (-2)) 3 1) := rfl
  rcases hcomputes balanceLinked hfn balanceExpr hmem balanceExpr balanceExpr.self_mem_nodes
    (by decide) (by decide) .bool hcheck (by rintro ⟨⟩) with ⟨id, hid, -⟩ | hcode
  · cases hid
  obtain ⟨g', code, hlower, hlines, hrun⟩ := hcode balanceGenerator rfl
  have hcode : balanceCode = code := by
    rw [balanceCode, hlower]
    exact hlines
  have hat : balanceImage.At balanceStart.pc code := by
    have hlines : balanceImage.At 0 balanceLines := List.prefix_refl _
    rw [balanceLines, Image.at_append, hcode] at hlines
    exact hlines.2
  have htraps : ¬balanceExpr.Traps balanceStore := fun htraps => by
    cases htraps.eval_eq_none.symm.trans heval
  obtain ⟨value, store', t, hvalue, ht⟩ := hrun balanceImage 0x7ffe0000 balanceStart balanceStore
    balance_supplied hat balance_clear (by decide +kernel) balance_agrees htraps
  cases heval.symm.trans hvalue
  have hplace : ∀ (id : Ident) (link : SymbolId), id ∈ balanceLinked.mentions →
      id.link = some link → ∀ symbol, (balance.linked {}).context.symbols.get? link = some symbol →
      symbol.IsVariable → t.mem (balanceImage.locate (balanceStart.reg .fp) symbol.location) =
        Function.update (Function.update balanceStore 2 (-2)) 3 1 link :=
    fun id link hid hlink symbol hget hvariable =>
      ht.agrees.values link _ ⟨id, hid, hlink, symbol, hget, hvariable, by rw [ht.fp]⟩
  refine ⟨t, ht.steps, hcode ▸ ht.pc, ht.sp, ht.shows, ?_, ?_⟩
  · exact hplace ⟨"x", ⟨4, 7⟩, some 2⟩ 2 (by decide) rfl _ rfl ⟨rfl, rfl⟩
  · exact hplace ⟨"ok", ⟨5, 8⟩, some 3⟩ 3 (by decide) rfl _ rfl ⟨rfl, rfl⟩

end Program

end StackMips
