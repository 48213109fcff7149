import StackMips.Proofs.Lowering.Pool
import StackMips.Proofs.Semantics
import StackMips.Proofs.Simulation.Run

/-!
# Variables in memory

Where the variables of a function lie while its code runs, and what the code of an expression or a
statement leaves alone: every word outside the stack that is no variable.
-/

namespace StackMips

open Mips

def Mips.Image.locate (image : Image) (fp : Word) : Location → Word
  | .frame offset => fp + .ofInt 32 offset
  | .global label => image.dataAddress label

/-- Where a script is loaded, the texts that are known behind it have their labels, if those known
before it have. -/
theorem Script.Stores.texts {c : Context} {script : Script} (h : Script.Stores c script)
    {image : Image} {pc : Nat} (hat : image.At pc script.lines)
    (hknown : ∀ text label, c.strings.lookup text = some label →
      ∃ comment, .label label (some ⟨.asciiz text, comment⟩) ∈ image.lines)
    {text : String} {label : Label} (hlookup : (c.after script).strings.lookup text = some label) :
    ∃ comment, .label label (some ⟨.asciiz text, comment⟩) ∈ image.lines := by
  rcases h text label hlookup with hold | hnew
  · exact hknown text label hold
  · exact ⟨none, List.mem_of_mem_drop (hat.subset hnew)⟩

/-- What stays the same while code of one function runs. -/
structure Setting where
  image : Image
  symbols : Arena
  /-- The literals that have labels at the end of the code. -/
  pool : StringPool
  fp : Word
  /-- The stack pointer outside all expressions. -/
  top : Word
  /-- The stack stays above this address. -/
  floor : Nat
  /-- Which variable lies where. -/
  Place : SymbolId → Word → Prop
  typed : symbols.Typed
  texts : ∀ {text label}, pool.lookup text = some label →
    ∃ comment, .label label (some ⟨.asciiz text, comment⟩) ∈ image.lines
  unique : ∀ {link link' a a'}, Place link a → Place link' a' → (link = link' ↔ a = a')
  outside : ∀ {link a}, Place link a → top.toNat < a.toNat ∨ a.toNat ≤ floor
  aligned : ∀ {link a}, Place link a → a.Aligned

namespace Setting

variable {S : Setting}

def locate (S : Setting) (location : Location) : Word := S.image.locate S.fp location

def Names (S : Setting) (id : Ident) : Prop :=
  ∃ link location, id.link = some link ∧ S.symbols.location? id = some location ∧
    S.Place link (S.locate location)

def Covers (S : Setting) (ids : List Ident) : Prop :=
  ∀ id ∈ ids, ∀ ty, S.symbols.ty? id = some ty → ty.isStorable → S.Names id

def Canonical (S : Setting) (store : Store) : Prop :=
  ∀ link a, S.Place link a → ∀ symbol, S.symbols.get? link = some symbol → symbol.ty = .bool →
    store link = 0 ∨ store link = 1

/-- The word that stands for a value: the address of its label stands for a text. -/
def Represents (S : Setting) (word : Word) : Value → Prop
  | .word word' => word = word'
  | .text text => ∃ label, S.pool.lookup text = some label ∧ word = S.image.dataAddress label

/-- The machine is in the frame of the setting, and the variables hold the values of the store. -/
structure Sits (S : Setting) (store : Store) (s : State) : Prop where
  fp : s.reg .fp = S.fp
  below : (s.reg .sp).toNat ≤ S.top.toNat
  above : S.floor ≤ (s.reg .sp).toNat
  aligned : (s.reg .sp).Aligned
  holds : ∀ {link a}, S.Place link a → s.mem a = store link

/-- The stack does not reach an address while its first free word is `base`. -/
def Spares (S : Setting) (base a : Word) : Prop := base.toNat < a.toNat ∨ a.toNat ≤ S.floor

/-- From one state to another, nothing was read or written, and only variables and words of the
stack changed. -/
structure Keeps (S : Setting) (base : Word) (s t : State) : Prop where
  mem : ∀ a : Word, S.Spares base a → (∀ link, ¬S.Place link a) → t.mem a = s.mem a
  input : t.input = s.input
  events : t.events = s.events

structure Rests (S : Setting) (store : Store) (s t : State) : Prop where
  sp : t.reg .sp = s.reg .sp
  sits : S.Sits store t
  keeps : S.Keeps (s.reg .sp) s t

structure Yields (S : Setting) (value : Value) (store : Store) (s t : State) : Prop where
  sp : t.reg .sp = s.reg .sp - 4#32
  value : S.Represents (t.mem (s.reg .sp)) value
  sits : S.Sits store t
  keeps : S.Keeps (s.reg .sp) s t

variable {store store' : Store} {value : Value} {s t u : State} {register : Register} {word : Word}

/-! ## Addresses -/

theorem not_place_of_le {a : Word} (h : a.toNat ≤ S.top.toNat) (h' : S.floor < a.toNat)
    (link : SymbolId) : ¬S.Place link a := by
  intro hplace
  have := S.outside hplace
  omega

theorem Spares.mono {base base' a : Word} (h : S.Spares base' a) (hle : base.toNat ≤ base'.toNat) :
    S.Spares base a :=
  h.imp_left (by omega)

theorem Spares.ne {base a : Word} (h : S.Spares base a) (hbase : S.floor < base.toNat) :
    a ≠ base := by
  rintro rfl
  rcases h with h | h <;> omega

/-! ## Keeping words -/

theorem Keeps.refl (S : Setting) (base : Word) (s : State) : S.Keeps base s s :=
  ⟨fun _ _ _ => rfl, rfl, rfl⟩

theorem Keeps.trans {base : Word} (h : S.Keeps base s t) (h' : S.Keeps base t u) :
    S.Keeps base s u where
  mem a ha hplace := (h'.mem a ha hplace).trans (h.mem a ha hplace)
  input := h'.input.trans h.input
  events := h'.events.trans h.events

theorem Keeps.mono {base base' : Word} (h : S.Keeps base s t) (hle : base.toNat ≤ base'.toNat) :
    S.Keeps base' s t where
  mem a ha hplace := h.mem a (ha.mono hle) hplace
  input := h.input
  events := h.events

/-! ## Resting -/

theorem Rests.refl (h : S.Sits store s) : S.Rests store s s := ⟨rfl, h, .refl S _ s⟩

theorem Rests.trans (h : S.Rests store s t) (h' : S.Rests store' t u) : S.Rests store' s u where
  sp := h'.sp.trans h.sp
  sits := h'.sits
  keeps := h.keeps.trans (h.sp ▸ h'.keeps)

theorem Sits.of_eq (h : S.Sits store s) (hfp : t.reg .fp = s.reg .fp)
    (hsp : t.reg .sp = s.reg .sp) (hmem : t.mem = s.mem) : S.Sits store t :=
  ⟨hfp.trans h.fp, hsp ▸ h.below, hsp ▸ h.above, hsp ▸ h.aligned,
    fun hplace => (congrFun hmem _).trans (h.holds hplace)⟩

theorem Rests.of_eq (h : S.Rests store s t) (hfp : u.reg .fp = t.reg .fp)
    (hsp : u.reg .sp = t.reg .sp) (hmem : u.mem = t.mem) (hinput : u.input = t.input)
    (hevents : u.events = t.events) : S.Rests store s u where
  sp := hsp.trans h.sp
  sits := h.sits.of_eq hfp hsp hmem
  keeps := ⟨fun a ha hplace => (congrFun hmem a).trans (h.keeps.mem a ha hplace),
    hinput.trans h.keeps.input, hevents.trans h.keeps.events⟩

theorem Rests.past (h : S.Rests store s t) (script : Script) : S.Rests store s (t.past script) :=
  h.of_eq rfl rfl rfl rfl rfl

theorem Rests.next (h : S.Rests store s t) : S.Rests store s t.next :=
  h.of_eq rfl rfl rfl rfl rfl

theorem Rests.jump (h : S.Rests store s t) (pc : Nat) : S.Rests store s (t.jump pc) :=
  h.of_eq rfl rfl rfl rfl rfl

theorem Rests.set (h : S.Rests store s t) (register : Register) (word : Word)
    (hfp : .fp ≠ register) (hsp : .sp ≠ register) : S.Rests store s (t.set register word) :=
  h.of_eq (by simp [hfp]) (by simp [hsp]) rfl rfl rfl

theorem Sits.inert (h : S.Sits store s) {script : Script}
    (hscript : ∀ action ∈ script, action.isInert) :
    S.image.Reaches script s (S.Rests store s) :=
  .inert hscript ((Rests.refl h).past script)

theorem Rests.assign (h : S.Rests store s t) {link : SymbolId} {a : Word} (hplace : S.Place link a)
    (word : Word) :
    S.Rests (Function.update store link word) s (t.store a word) where
  sp := h.sp
  sits := by
    refine ⟨h.sits.fp, h.sits.below, h.sits.above, h.sits.aligned, fun {link' a'} hplace' => ?_⟩
    have hunique := S.unique hplace' hplace
    by_cases heq : link' = link
    · obtain rfl := hunique.mp heq
      simp [heq]
    · have hne : a' ≠ a := fun ha => heq (hunique.mpr ha)
      simp [hne, heq, h.sits.holds hplace']
  keeps := by
    refine ⟨fun a' ha' hnone => ?_, h.keeps.input, h.keeps.events⟩
    have hne : a' ≠ a := by
      rintro rfl
      exact hnone link hplace
    simp [hne, h.keeps.mem a' ha' hnone]

/-! ## Pushing and popping -/

theorem Yields.sp_add (h : S.Yields value store s t) : t.reg .sp + 4#32 = s.reg .sp := by
  rw [h.sp, BitVec.sub_add_cancel]

theorem Rests.push (h : S.Rests store s t) (hroom : S.floor + 4 ≤ (s.reg .sp).toNat)
    (hvalue : S.Represents (t.reg register) value) :
    S.Yields value store s (t.push register) where
  sp := by simp [h.sp]
  value := by simpa [h.sp] using hvalue
  sits := by
    have hle := h.sits.below
    have haligned := h.sits.aligned
    rw [h.sp] at hle haligned
    refine ⟨h.sits.fp, ?_, ?_, ?_, fun {link a} hplace => ?_⟩
    · simp only [State.reg_push, if_true, h.sp]
      bv_omega
    · simp only [State.reg_push, if_true, h.sp]
      bv_omega
    · simp only [State.reg_push, if_true, h.sp, Word.Aligned] at haligned ⊢
      bv_omega
    · have hne : a ≠ t.reg .sp := by
        rintro rfl
        exact not_place_of_le h.sits.below (by rw [h.sp]; omega) link hplace
      simp [hne, h.sits.holds hplace]
  keeps := by
    refine ⟨fun a ha hnone => ?_, h.keeps.input, h.keeps.events⟩
    have hne : a ≠ t.reg .sp := h.sp ▸ ha.ne (by omega)
    simp [hne, h.keeps.mem a ha hnone]

theorem Yields.pop (h : S.Yields value store s t) (hs : S.Sits store' s) (register : Register)
    (hfp : .fp ≠ register) : S.Rests store s (t.pop register) where
  sp := by simp [h.sp_add]
  sits := by
    refine ⟨by simp [hfp, h.sits.fp], ?_, ?_, ?_, fun hplace => h.sits.holds hplace⟩
    · simpa [h.sp_add] using hs.below
    · simpa [h.sp_add] using hs.above
    · simpa [h.sp_add] using hs.aligned
  keeps := ⟨fun a ha hnone => h.keeps.mem a ha hnone, h.keeps.input, h.keeps.events⟩

theorem Yields.reg_pop (h : S.Yields value store s t) (register : Register)
    (hsp : register ≠ .sp) : S.Represents ((t.pop register).reg register) value := by
  simpa [hsp, h.sp_add] using h.value

theorem Yields.reaches_pop (h : S.Yields value store s t) (hs : S.Sits store' s)
    (register : Register) (hsp : register ≠ .sp) :
    S.image.Reaches [.pop register] t (· = t.pop register) :=
  .exec (by simp [h.sp_add, hs.aligned, hsp]) rfl

/-- A pushed value stays where it is. -/
theorem Yields.rests (h : S.Yields value store s t) (hs : S.Sits store' s)
    (hroom : S.floor + 4 ≤ (s.reg .sp).toNat) {store'' : Store} (h' : S.Rests store'' t u) :
    S.Yields value store'' s u where
  sp := h'.sp.trans h.sp
  value := by
    have hsp := h.sp
    rw [h'.keeps.mem _ (.inl (by rw [hsp]; bv_omega)) (not_place_of_le hs.below (by omega))]
    exact h.value
  sits := h'.sits
  keeps := by
    have hsp := h.sp
    exact h.keeps.trans (h'.keeps.mono (by rw [hsp]; bv_omega))

theorem Rests.yields (h : S.Rests store s t) (h' : S.Yields value store' t u) :
    S.Yields value store' s u where
  sp := by rw [h'.sp, h.sp]
  value := h.sp ▸ h'.value
  sits := h'.sits
  keeps := h.keeps.trans (h.sp ▸ h'.keeps)

end Setting

end StackMips
