import StackMips.Proofs.Lowering.Blocked
import StackMips.Proofs.Lowering.Script

/-!
# Code generation follows the scripts

On a well-typed tree the generator performs the script of the tree, step by step, unless it meets a
field access; then it ends at the first one.  In particular no check of the operand stack fails.
-/

namespace StackMips

open Mips

/-! ## Scripts and states -/

namespace Script

@[simp] theorem lines_nil : lines [] = [] := rfl

@[simp] theorem lines_cons (action : Action) (script : Script) :
    lines (action :: script) = action.lines ++ lines script :=
  List.flatMap_cons

@[simp] theorem lines_append (a b : Script) : lines (a ++ b) = lines a ++ lines b :=
  List.flatMap_append

@[simp] theorem depth_nil (d : Nat) : depth d [] = d := rfl

@[simp] theorem depth_cons (d : Nat) (action : Action) (script : Script) :
    depth d (action :: script) = depth (action.depth d) script := rfl

@[simp] theorem depth_append (d : Nat) (a b : Script) :
    depth d (a ++ b) = depth (depth d a) b :=
  List.foldl_append

end Script

namespace Action

@[simp] theorem depth_emit (d : Nat) (line : Line) : (Action.emit line).depth d = d := rfl
@[simp] theorem depth_op (d : Nat) (o : Operation) : (Action.op o).depth d = d := rfl
@[simp] theorem depth_push (d : Nat) (r : Register) : (Action.push r).depth d = d + 1 := rfl
@[simp] theorem depth_pop (d : Nat) (r : Register) : (Action.pop r).depth d = d - 1 := rfl
@[simp] theorem depth_release (d n : Nat) : (Action.release n).depth d = d - n := rfl
@[simp] theorem depth_mint (d : Nat) : Action.mint.depth d = d := rfl
@[simp] theorem depth_pool (d : Nat) (text : String) (label : Label) :
    (Action.pool text label).depth d = d := rfl

@[simp] theorem context_emit (c : Context) (line : Line) : (Action.emit line).context c = c := rfl
@[simp] theorem context_op (c : Context) (o : Operation) : (Action.op o).context c = c := rfl
@[simp] theorem context_push (c : Context) (r : Register) : (Action.push r).context c = c := rfl
@[simp] theorem context_pop (c : Context) (r : Register) : (Action.pop r).context c = c := rfl
@[simp] theorem context_release (c : Context) (n : Nat) : (Action.release n).context c = c := rfl
@[simp] theorem context_mint (c : Context) : Action.mint.context c = c.minted 1 := rfl

end Action

namespace Context

@[simp] theorem after_nil (c : Context) : c.after [] = c := rfl

@[simp] theorem after_cons (c : Context) (action : Action) (script : Script) :
    c.after (action :: script) = (action.context c).after script := rfl

@[simp] theorem after_append (c : Context) (a b : Script) :
    c.after (a ++ b) = (c.after a).after b :=
  List.foldl_append

@[simp] theorem depth_opWith (c : Context) (o : Operation) (text : String) (d : Nat) :
    (c.opWith o text).depth d = d := rfl

@[simp] theorem context_opWith (c c' : Context) (o : Operation) (text : String) :
    (c.opWith o text).context c' = c' := rfl

@[simp] theorem depth_note (c : Context) (text : String) (d : Nat) :
    Script.depth d (c.note text) = d := by
  unfold note
  split <;> rfl

@[simp] theorem after_note (c c' : Context) (text : String) : c'.after (c.note text) = c' := by
  unfold note
  split <;> rfl

@[simp] theorem minted_minted (c : Context) (m n : Nat) :
    (c.minted m).minted n = c.minted (m + n) := by
  simp [minted, Nat.add_assoc]

@[simp] theorem symbols_minted (c : Context) (n : Nat) : (c.minted n).symbols = c.symbols := rfl

@[simp] theorem labels_minted (c : Context) (n : Nat) :
    (c.minted n).labels = c.labels + n := rfl

@[simp] theorem options_minted (c : Context) (n : Nat) : (c.minted n).options = c.options := rfl

@[simp] theorem note_minted (c : Context) (n : Nat) (text : String) :
    (c.minted n).note text = c.note text := rfl

theorem after_fixed (c : Context) (script : Script) :
    (c.after script).symbols = c.symbols ∧ (c.after script).options = c.options := by
  induction script generalizing c with
  | nil => exact ⟨rfl, rfl⟩
  | cons action script ih =>
      obtain ⟨hsymbols, hoptions⟩ := ih (action.context c)
      rw [after_cons, hsymbols, hoptions]
      cases action <;> exact ⟨rfl, rfl⟩

@[simp] theorem symbols_after (c : Context) (script : Script) :
    (c.after script).symbols = c.symbols :=
  (c.after_fixed script).1

@[simp] theorem options_after (c : Context) (script : Script) :
    (c.after script).options = c.options :=
  (c.after_fixed script).2

@[simp] theorem opWith_after (c : Context) (script : Script) (o : Operation) (text : String) :
    (c.after script).opWith o text = c.opWith o text := by
  rw [opWith, opWith, options_after]

@[simp] theorem note_after (c : Context) (script : Script) (text : String) :
    (c.after script).note text = c.note text := by
  rw [note, note, options_after]

@[simp] theorem loadAddress_after (c : Context) (script : Script) (id : Ident) :
    (c.after script).loadAddress id = c.loadAddress id := by
  simp [loadAddress]

@[simp] theorem address_after (c : Context) (script : Script) (target : Expr) :
    (c.after script).address target = c.address target := by
  cases target <;> simp [address]

@[simp] theorem after_address (c c' : Context) (target : Expr) :
    c'.after (c.address target) = c' := by
  cases target with
  | name id => rw [address, loadAddress]; split <;> rfl
  | _ => rfl

@[simp] theorem yields_after (c : Context) (script : Script) (callee : Ident) :
    (c.after script).yields callee = c.yields callee := by
  simp [yields]

@[simp] theorem isEntryPoint_after (c : Context) (script : Script) (name : String) :
    (c.after script).isEntryPoint name = c.isEntryPoint name := by
  simp [isEntryPoint]

@[simp] theorem functionLabel_after (c : Context) (script : Script) (name : String) :
    (c.after script).functionLabel name = c.functionLabel name := by
  simp [functionLabel]

end Context

namespace Generator

theorem perform_nil (g : Generator) : g.perform [] = g := rfl

theorem perform_cons (g : Generator) (action : Action) (script : Script) :
    g.perform (action :: script) = (action.apply g).perform script := rfl

theorem perform_append (g : Generator) (a b : Script) :
    g.perform (a ++ b) = (g.perform a).perform b :=
  List.foldl_append

@[simp] theorem context_perform (g : Generator) (script : Script) :
    (g.perform script).context = g.context.after script := by
  induction script generalizing g with
  | nil => rfl
  | cons action script ih => exact ih _

@[simp] theorem depth_perform (g : Generator) (script : Script) :
    (g.perform script).depth = script.depth g.depth := by
  induction script generalizing g with
  | nil => rfl
  | cons action script ih => exact ih _

@[simp] theorem exit_perform (g : Generator) (script : Script) :
    (g.perform script).exit = g.exit := by
  induction script generalizing g with
  | nil => rfl
  | cons action script ih => exact ih _

theorem lines_perform (g : Generator) (script : Script) :
    (g.perform script).lines.toList = g.lines.toList ++ script.lines := by
  induction script generalizing g with
  | nil => simp [perform_nil]
  | cons action script ih => simp [perform_cons, ih, Action.apply]

end Generator

/-! ## Commands -/

namespace Gen

variable {α β : Type}

theorem bind_of_ok {m : Gen α} {f : α → Gen β} {g g' : Generator} {a : α} (h : m g = .ok a g') :
    (m >>= f) g = f a g' := by
  change EStateM.bind m f g = _
  rw [EStateM.bind, h]

theorem bind_of_error {m : Gen α} {f : α → Gen β} {g g' : Generator} {stop : Stop}
    (h : m g = .error stop g') : (m >>= f) g = .error stop g' := by
  change EStateM.bind m f g = _
  rw [EStateM.bind, h]

theorem get_bind (f : Generator → Gen β) (g : Generator) : (get >>= f) g = f g g := rfl

theorem liftM_bind {x : Except Fault α} {a : α} (h : x = .ok a) (f : α → Gen β) (g : Generator) :
    ((liftM x : Gen α) >>= f) g = f a g := by
  subst h
  rfl

theorem emit_apply (line : Line) (g : Generator) :
    emit line g = .ok () (g.perform [.emit line]) := by
  simp [Generator.perform, Action.apply, Action.lines, Action.context]
  rfl

theorem op_apply (operation : Operation) (g : Generator) :
    op operation g = .ok () (g.perform [.op operation]) :=
  emit_apply _ g

theorem opWith_apply (operation : Operation) (text : String) (g : Generator) :
    opWith operation text g = .ok () (g.perform [g.context.opWith operation text]) :=
  emit_apply _ g

theorem comment_apply (text : String) (g : Generator) :
    comment text g = .ok () (g.perform (g.context.note text)) := by
  rw [comment, get_bind, Context.note]
  cases g.context.options.comments
  · rfl
  · exact emit_apply _ g

theorem push_apply (register : Register) (g : Generator) :
    push register g = .ok () (g.perform [.push register]) := by
  have hlines : ∀ a b : Line, g.lines ++ [a, b] = (g.lines.push a).push b := by simp
  rw [Generator.perform_cons, Generator.perform_nil, Action.apply, Action.lines, hlines]
  rfl

theorem pop_apply (register : Register) {g : Generator} (h : 0 < g.depth) :
    pop register g = .ok () (g.perform [.pop register]) := by
  have hlines : ∀ a b : Line, g.lines ++ [a, b] = (g.lines.push a).push b := by simp
  rw [Generator.perform_cons, Generator.perform_nil, Action.apply, Action.lines, hlines, pop,
    get_bind, if_neg (Nat.ne_of_gt h)]
  rfl

theorem release_apply {words : Nat} {g : Generator} (h : words ≤ g.depth) :
    release words g = .ok () (g.perform [.release words]) := by
  rw [Generator.perform_cons, Generator.perform_nil, Action.apply, release, get_bind,
    if_neg (Nat.not_lt.mpr h)]
  simp [Action.lines]
  rfl

theorem freshLabel_apply (g : Generator) :
    freshLabel g = .ok (Context.synthetic g.context.labels) (g.perform [.mint]) := by
  simp [Generator.perform, Action.apply, Action.lines]
  rfl

theorem defineLabel_apply (label : Label) (g : Generator) :
    defineLabel label g = .ok () (g.perform [.emit (.label label none)]) :=
  emit_apply _ g

theorem functionLabel_apply (name : String) (g : Generator) :
    functionLabel name g = .ok (g.context.functionLabel name) (g.perform []) := rfl

theorem region_apply (target : Region) (g : Generator) :
    region target g = .ok () (g.perform [.emit (.region target)]) :=
  emit_apply _ g

end Gen

/-! ## Performing a script -/

/-- The computation performs a script, unless something is blocked; then it ends at the first such
thing. -/
def Performs (m : Gen Unit) (g : Generator) (script : Script) (blocked : List Unsupported) : Prop :=
  match blocked with
  | [] => m g = .ok () (g.perform script)
  | u :: _ => ∃ g', m g = .error (.unsupported u) g'

namespace Performs

variable {m k : Gen Unit} {g : Generator} {script rest : Script}
  {blocked more : List Unsupported}

theorem seq (hm : Performs m g script blocked)
    (hk : blocked = [] → Performs k (g.perform script) rest more) :
    Performs (do m; k) g (script ++ rest) (blocked ++ more) := by
  cases blocked with
  | nil =>
      have hm : m g = .ok () (g.perform script) := hm
      have hk := hk rfl
      rw [List.nil_append]
      cases more with
      | nil =>
          have hk : k (g.perform script) = .ok () ((g.perform script).perform rest) := hk
          exact (Gen.bind_of_ok hm).trans (hk.trans (by rw [Generator.perform_append]))
      | cons u more =>
          obtain ⟨g', hk⟩ := hk
          exact ⟨g', (Gen.bind_of_ok hm).trans hk⟩
  | cons u blocked =>
      obtain ⟨g', hm⟩ := hm
      exact ⟨g', Gen.bind_of_error hm⟩

theorem step {α : Type} {m : Gen α} {a : α} {k : α → Gen Unit}
    (hm : m g = .ok a (g.perform script))
    (hk : Performs (k a) (g.perform script) rest blocked) :
    Performs (m >>= k) g (script ++ rest) blocked := by
  cases blocked with
  | nil =>
      have hk : k a (g.perform script) = .ok () ((g.perform script).perform rest) := hk
      exact (Gen.bind_of_ok hm).trans (hk.trans (by rw [Generator.perform_append]))
  | cons u blocked =>
      obtain ⟨g', hk⟩ := hk
      exact ⟨g', (Gen.bind_of_ok hm).trans hk⟩

/-- What a computation does is a matter of its run. -/
theorem of_run (hrun : m g = k g) (hk : Performs k g script blocked) :
    Performs m g script blocked := by
  cases blocked with
  | nil => exact hrun.trans hk
  | cons u blocked =>
      obtain ⟨g', hk⟩ := hk
      exact ⟨g', hrun.trans hk⟩

protected theorem get {k : Generator → Gen Unit} (hk : Performs (k g) g script blocked) :
    Performs (MonadState.get >>= k) g script blocked :=
  of_run rfl hk

theorem lift {α : Type} {x : Except Fault α} {a : α} {k : α → Gen Unit} (hx : x = .ok a)
    (hk : Performs (k a) g script blocked) :
    Performs ((liftM x : Gen α) >>= k) g script blocked :=
  of_run (Gen.liftM_bind hx k g) hk

theorem when {c : Prop} [Decidable c] {k : Unit → Gen Unit}
    (hm : c → m g = .ok () (g.perform script))
    (hk : Performs (k ()) (g.perform (if c then script else [])) rest blocked) :
    Performs (if c then m >>= k else k ()) g ((if c then script else []) ++ rest) blocked := by
  by_cases hc : c
  · simp only [if_pos hc] at hk ⊢
    exact step (hm hc) hk
  · simpa only [if_neg hc, Generator.perform_nil, List.nil_append] using hk

theorem skip {α : Type} {c : Prop} [Decidable c] {m : Gen α} {k : α → Gen Unit} {k' : Gen Unit}
    (hc : ¬c) (hk : Performs k' g script blocked) :
    Performs (if c then m >>= k else k') g script blocked := by
  rwa [if_neg hc]

theorem ok (hm : m g = .ok () (g.perform script)) : Performs m g script [] := hm

theorem lastly {c : Prop} [Decidable c] (hm : c → m g = .ok () (g.perform script)) :
    Performs (if c then m else pure ()) g (if c then script else []) [] := by
  by_cases hc : c
  · simpa only [if_pos hc] using ok (hm hc)
  · simp only [if_neg hc]
    exact ok rfl

theorem of_eq {script' : Script} {blocked' : List Unsupported} (h : Performs m g script blocked)
    (hscript : script = script') (hblocked : blocked = blocked') :
    Performs m g script' blocked' := by
  subst hscript hblocked
  exact h

/-- Only the first thing that is blocked matters. -/
theorem of_head {blocked' : List Unsupported} (h : Performs m g script blocked)
    (hblocked : blocked.head? = blocked'.head?) : Performs m g script blocked' := by
  cases blocked <;> cases blocked' <;> simp_all [Performs]

/-- A check of the operand stack at the end passes if the script is balanced accordingly. -/
theorem pushing {e : Expr} (hm : Performs m g script blocked)
    (hdepth : blocked = [] → script.depth g.depth = g.depth + 1) :
    Performs (Gen.pushing e m) g script blocked := by
  cases blocked with
  | nil =>
      have hm : m g = .ok () (g.perform script) := hm
      have hdepth : (g.perform script).depth = g.depth + 1 := by simpa using hdepth rfl
      change (get >>= _ : Gen Unit) g = _
      rw [Gen.get_bind, Gen.bind_of_ok hm, Gen.get_bind, hdepth]
      simp
      rfl
  | cons u blocked =>
      obtain ⟨g', hm⟩ := hm
      refine ⟨g', ?_⟩
      change (get >>= _ : Gen Unit) g = _
      rw [Gen.get_bind, Gen.bind_of_error hm]

theorem balanced (hm : Performs m g script blocked)
    (hdepth : blocked = [] → script.depth g.depth = g.depth) :
    Performs (Gen.balanced m) g script blocked := by
  cases blocked with
  | nil =>
      have hm : m g = .ok () (g.perform script) := hm
      have hdepth : (g.perform script).depth = g.depth := by simpa using hdepth rfl
      change (get >>= _ : Gen Unit) g = _
      rw [Gen.get_bind, Gen.bind_of_ok hm, Gen.get_bind, hdepth]
      simp
      rfl
  | cons u blocked =>
      obtain ⟨g', hm⟩ := hm
      refine ⟨g', ?_⟩
      change (get >>= _ : Gen Unit) g = _
      rw [Gen.get_bind, Gen.bind_of_error hm]

end Performs

/-! ## Variables -/

theorem Arena.location?_isSome {symbols : Arena} {id : Ident} {ty : Ty}
    (h : symbols.ty? id = some ty) : ∃ location, symbols.location? id = some location := by
  obtain ⟨symbol, hsymbol, _⟩ := Option.map_eq_some_iff.mp h
  exact ⟨_, by rw [location?, hsymbol]; rfl⟩

theorem Ident.location_eq {symbols : Arena} {id : Ident} {location : Location}
    (h : symbols.location? id = some location) : id.location symbols = .ok location := by
  obtain ⟨symbol, hsymbol, rfl⟩ := Option.map_eq_some_iff.mp h
  rw [Ident.location, Ident.symbol_eq hsymbol]
  rfl

namespace Gen

theorem load_apply {id : Ident} {g : Generator} {location : Location}
    (h : g.context.symbols.location? id = some location) :
    load id g = .ok () (g.perform (g.context.load id)) := by
  have hlocation : Gen.location id g = .ok location g := by
    rw [Gen.location, get_bind, Ident.location_eq h]
    rfl
  rw [load, bind_of_ok hlocation, Context.load, h]
  cases location <;>
    exact (bind_of_ok (opWith_apply _ _ g)).trans (push_apply _ _)

theorem loadAddress_apply {id : Ident} {g : Generator} {location : Location}
    (h : g.context.symbols.location? id = some location) :
    loadAddress id g = .ok () (g.perform (g.context.loadAddress id)) := by
  have hlocation : Gen.location id g = .ok location g := by
    rw [Gen.location, get_bind, Ident.location_eq h]
    rfl
  rw [loadAddress, bind_of_ok hlocation, Context.loadAddress, h]
  cases location with
  | frame offset => exact (bind_of_ok (opWith_apply _ _ g)).trans (push_apply _ _)
  | global label => exact (bind_of_ok (op_apply _ g)).trans (push_apply _ _)

theorem pool_apply (text : String) (label : Label) (g : Generator) :
    (modify fun g => { g with context := { g.context with
      strings := g.context.strings.insert text label } } : Gen Unit) g =
      .ok () (g.perform [.pool text label]) := by
  simp [Generator.perform, Action.apply, Action.lines]
  rfl

theorem stringLabel_apply (text : String) (g : Generator) :
    stringLabel text g =
      .ok (g.context.stringLabel text) (g.perform (g.context.pooling text)) := by
  rw [stringLabel, get_bind, Context.stringLabel, Context.pooling]
  cases g.context.strings.lookup text with
  | some label => rfl
  | none =>
      simp only [bind_of_ok (freshLabel_apply g), bind_of_ok (pool_apply _ _ _),
        bind_of_ok (region_apply _ _), bind_of_ok (emit_apply _ _)]
      rfl

theorem constant_apply (value : Int) (g : Generator) :
    constant value g = .ok () (g.perform (g.context.constant value)) :=
  (bind_of_ok (opWith_apply _ _ g)).trans (push_apply _ _)

theorem string_apply (text : String) (g : Generator) :
    string text g = .ok () (g.perform (g.context.string text)) := by
  rw [string, bind_of_ok (stringLabel_apply text g), bind_of_ok (opWith_apply _ _ _), push_apply,
    Context.string, Generator.perform_append, Generator.context_perform, Context.opWith_after]
  rfl

end Gen

end StackMips
