import StackMips.Proofs.Booleans.Code

/-!
# Code in a frame

While the code of a function runs, it changes variables and words of the operand stack below its
frame.  It leaves alone the registers that were saved, the boolean variables of the functions that
wait for it, and whatever else lies above its frame.
-/

namespace StackMips

open Mips

/-- The frame of an active function: who waits for it, the registers that it saved, and the words
that were in memory when it was called. -/
structure Frame where
  fn : FnDecl
  /-- The address of the first parameter. -/
  top : Word
  outer : List Activation
  /-- The return address. -/
  back : Word
  /-- The frame of the caller. -/
  link : Word
  before : Word → Word

/-- A word of a type: booleans are 0 or 1. -/
def Ty.Fits (ty : Ty) (word : Word) : Prop := ty = .bool → word.IsFlag

theorem Ty.fits_of_ne {ty : Ty} (h : ty ≠ .bool) (word : Word) : ty.Fits word :=
  fun heq => absurd heq h

namespace Frame

def active (F : Frame) (answered : Bool) : List Activation := ⟨F.fn, F.top, answered⟩ :: F.outer

/-- What the function keeps until it returns. -/
structure Intact (F : Frame) (s : State) : Prop where
  fp : s.reg .fp = F.top
  back : s.mem (F.top.below F.fn.formals.length) = F.back
  link : s.mem (F.top.below (F.fn.formals.length + 1)) = F.link
  above : ∀ a : Word, F.top.toNat < a.toNat → s.mem a = F.before a

variable {F : Frame} {s t : State}

theorem Intact.of_eq (h : F.Intact s) (hfp : t.reg .fp = s.reg .fp) (hmem : t.mem = s.mem) :
    F.Intact t :=
  ⟨hfp.trans h.fp, hmem ▸ h.back, hmem ▸ h.link, hmem ▸ h.above⟩

theorem Intact.store (h : F.Intact s) {a : Word} (hback : a ≠ F.top.below F.fn.formals.length)
    (hlink : a ≠ F.top.below (F.fn.formals.length + 1)) (hle : a.toNat ≤ F.top.toNat)
    (word : Word) : F.Intact (s.store a word) where
  fp := h.fp
  back := by simp [hback.symm, h.back]
  link := by simp [hlink.symm, h.link]
  above a' ha' := by
    have hne : a' ≠ a := by
      rintro rfl
      omega
    simp [hne, h.above a' ha']

end Frame

namespace Process

variable (P : Process) (F : Frame)

/-- The frame lies above the floor and the global data, below the frames of those who wait. -/
structure Holds : Prop where
  room : P.floor + 4 * (F.fn.frameSize + 1) ≤ F.top.toNat
  globals : ∀ a ∈ P.flags [], a.toNat ≤ P.floor
  own : ∀ a ∈ Activation.flags P.symbols ⟨F.fn, F.top, false⟩,
    F.top.toNat < a.toNat + 4 * F.fn.frameSize ∧ a.toNat ≤ F.top.toNat
  outer : ∀ a ∈ F.outer.flatMap (Activation.flags P.symbols), F.top.toNat < a.toNat

/-- A variable of a type that the function uses lies at an address. -/
structure Variable (ty : Ty) (a : Word) : Prop where
  flag : ty = .bool ↔ a ∈ P.flags (F.active false)
  back : a ≠ F.top.below F.fn.formals.length
  link : a ≠ F.top.below (F.fn.formals.length + 1)
  le_top : a.toNat ≤ F.top.toNat
  outside : F.top.toNat < a.toNat + 4 * F.fn.frameSize ∨ a.toNat ≤ P.floor

/-- The function is running, and all boolean variables hold 0 or 1. -/
structure Stays (x : Config) : Prop where
  active : x.active = F.active false
  intact : F.Intact x.state
  below : (x.state.reg .sp).toNat + 4 * F.fn.frameSize ≤ F.top.toNat
  room : P.floor + 4 ≤ (x.state.reg .sp).toNat
  flags : ∀ a ∈ P.flags x.active, (x.state.mem a).IsFlag

/-- The operands that were on the stack are still there. -/
def Keeps (x y : Config) : Prop :=
  ∀ a : Word, (x.state.reg .sp).toNat < a.toNat → a.toNat + 4 * F.fn.frameSize ≤ F.top.toNat →
    y.state.mem a = x.state.mem a

structure Rests (x y : Config) : Prop where
  stays : P.Stays F y
  sp : y.state.reg .sp = x.state.reg .sp
  keeps : Keeps F x y

/-- A word with a property has been pushed. -/
structure Yields (property : Word → Prop) (x y : Config) : Prop where
  stays : P.Stays F y
  sp : y.state.reg .sp = x.state.reg .sp - 4#32
  word : property (y.state.mem (x.state.reg .sp))
  keeps : Keeps F x y

variable {P F} {x y z : Config} {n : Nat} {register : Register} {property : Word → Prop}

theorem flags_active (active : List Activation) :
    P.flags active = P.flags [] ++ active.flatMap (Activation.flags P.symbols) := by
  simp [flags]

/-- No boolean variable lies on the operand stack. -/
theorem Holds.not_mem_flags (h : P.Holds F) {a : Word} (habove : P.floor < a.toNat)
    (hbelow : a.toNat + 4 * F.fn.frameSize ≤ F.top.toNat) (answered : Bool) :
    a ∉ P.flags (F.active answered) := by
  intro hmem
  rw [flags_active, Frame.active, List.flatMap_cons, List.mem_append, List.mem_append] at hmem
  rcases hmem with hglobal | hown | houter
  · have := h.globals a hglobal
    omega
  · have := h.own a hown
    omega
  · have := h.outer a houter
    omega

/-- Words of the frame do not lie on the operand stack. -/
theorem Holds.ne_below (h : P.Holds F) {a : Word}
    (hbelow : a.toNat + 4 * F.fn.frameSize ≤ F.top.toNat) {k : Nat} (hk : k < F.fn.frameSize) :
    a ≠ F.top.below k := by
  have hroom := h.room
  rintro rfl
  rw [Word.toNat_below (by omega)] at hbelow
  omega

/-! ## Staying -/

theorem Stays.move (h : P.Stays F x) (hactive : y.active = x.active)
    (hfp : y.state.reg .fp = x.state.reg .fp) (hmem : y.state.mem = x.state.mem)
    (hbelow : (y.state.reg .sp).toNat + 4 * F.fn.frameSize ≤ F.top.toNat)
    (hroom : P.floor + 4 ≤ (y.state.reg .sp).toNat) : P.Stays F y where
  active := hactive.trans h.active
  intact := h.intact.of_eq hfp hmem
  below := hbelow
  room := hroom
  flags := by
    rw [hactive, hmem]
    exact h.flags

theorem Stays.of_eq (h : P.Stays F x) (hactive : y.active = x.active)
    (hfp : y.state.reg .fp = x.state.reg .fp) (hsp : y.state.reg .sp = x.state.reg .sp)
    (hmem : y.state.mem = x.state.mem) : P.Stays F y :=
  h.move hactive hfp hmem (hsp ▸ h.below) (hsp ▸ h.room)

theorem Stays.store (h : P.Stays F x) (hP : P.Holds F) {a : Word} (habove : P.floor < a.toNat)
    (hbelow : a.toNat + 4 * F.fn.frameSize ≤ F.top.toNat) (word : Word) :
    P.Stays F ⟨(x.state.store a word).next, x.active⟩ where
  active := h.active
  intact := by
    have hsize : F.fn.formals.length + 2 ≤ F.fn.frameSize := Nat.le_add_right _ _
    exact (h.intact.store (hP.ne_below hbelow (by omega)) (hP.ne_below hbelow (by omega))
      (by omega) word).of_eq rfl rfl
  below := h.below
  room := h.room
  flags a' ha' := by
    have hne : a' ≠ a := by
      rintro rfl
      rw [h.active] at ha'
      exact hP.not_mem_flags habove hbelow false ha'
    simpa [hne] using h.flags a' ha'

theorem Rests.refl (h : P.Stays F x) : P.Rests F x x := ⟨h, rfl, fun _ _ _ => rfl⟩

theorem Rests.trans (h : P.Rests F x y) (h' : P.Rests F y z) : P.Rests F x z where
  stays := h'.stays
  sp := h'.sp.trans h.sp
  keeps a ha hle := (h'.keeps a (h.sp ▸ ha) hle).trans (h.keeps a ha hle)

theorem Rests.of_eq (h : P.Rests F x y) (hactive : z.active = y.active)
    (hfp : z.state.reg .fp = y.state.reg .fp) (hsp : z.state.reg .sp = y.state.reg .sp)
    (hmem : z.state.mem = y.state.mem) : P.Rests F x z where
  stays := h.stays.of_eq hactive hfp hsp hmem
  sp := hsp.trans h.sp
  keeps a ha hle := (congrFun hmem a).trans (h.keeps a ha hle)

theorem Rests.past (h : P.Rests F x y) (script : Script) :
    P.Rests F x ⟨y.state.past script, y.active⟩ :=
  h.of_eq rfl rfl rfl rfl

theorem Rests.set (h : P.Rests F x y) (hfp : .fp ≠ register) (hsp : .sp ≠ register) (word : Word) :
    P.Rests F x ⟨(y.state.set register word).next, y.active⟩ :=
  h.of_eq rfl (by simp [hfp]) (by simp [hsp]) rfl

theorem Rests.assign (h : P.Rests F x y) {ty : Ty} {a : Word} (hvariable : P.Variable F ty a)
    {word : Word} (hword : ty.Fits word) :
    P.Rests F x ⟨(y.state.store a word).next, y.active⟩ where
  stays :=
    { active := h.stays.active
      intact := (h.stays.intact.store hvariable.back hvariable.link hvariable.le_top word).of_eq
        rfl rfl
      below := h.stays.below
      room := h.stays.room
      flags := by
        intro a' ha'
        by_cases heq : a' = a
        · subst heq
          rw [h.stays.active] at ha'
          simpa using hword (hvariable.flag.mpr ha')
        · simpa [heq] using h.stays.flags a' ha' }
  sp := h.sp
  keeps a' ha' hle := by
    have hne : a' ≠ a := by
      have hroom := h.stays.room
      rw [h.sp] at hroom
      rintro rfl
      rcases hvariable.outside with hframe | hglobal <;> omega
    simp [hne, h.keeps a' ha' hle]

/-! ## Pushing and popping -/

theorem Rests.yields (h : P.Rests F x y) (h' : P.Yields F property y z) :
    P.Yields F property x z where
  stays := h'.stays
  sp := by rw [h'.sp, h.sp]
  word := h.sp ▸ h'.word
  keeps a ha hle := (h'.keeps a (h.sp ▸ ha) hle).trans (h.keeps a ha hle)

theorem Yields.toNat_sp (h : P.Yields F property x y) (hx : P.Stays F x) :
    (y.state.reg .sp).toNat + 4 = (x.state.reg .sp).toNat := by
  have hroom := hx.room
  have hsp := h.sp
  bv_omega

/-- A pushed word stays where it is. -/
theorem Yields.rests (h : P.Yields F property x y) (hx : P.Stays F x) (h' : P.Rests F y z) :
    P.Yields F property x z where
  stays := h'.stays
  sp := h'.sp.trans h.sp
  word := by
    have hsp := h.toNat_sp hx
    rw [h'.keeps _ (by omega) hx.below]
    exact h.word
  keeps a ha hle := by
    have hsp := h.toNat_sp hx
    exact (h'.keeps a (by omega) hle).trans (h.keeps a ha hle)

theorem Rests.push (h : P.Rests F x y) (hP : P.Holds F)
    (hregister : property (y.state.reg register)) :
    P.Leads n [Action.push register] y fun z =>
      P.Yields F property x z ∧ ∀ r ≠ .sp, z.state.reg r = y.state.reg r := by
  have hroom := h.stays.room
  have hbelow := h.stays.below
  have hapart : y.state.reg .sp ∉ P.flags y.active := by
    rw [h.stays.active]
    exact hP.not_mem_flags (by omega) hbelow false
  refine .push h.stays.flags hapart fun hpushed =>
    ⟨⟨?_, ?_, ?_, fun a ha hle => ?_⟩, fun r hr => by simp [hr]⟩
  · have hstored := h.stays.store hP (by omega) hbelow (y.state.reg register)
    refine hstored.move rfl rfl rfl ?_ ?_
    · simp only [State.reg_push, if_true]
      bv_omega
    · simpa using hpushed
  · simp [h.sp]
  · simpa [h.sp] using hregister
  · have hne : a ≠ y.state.reg .sp := by
      rw [h.sp]
      rintro rfl
      exact Nat.lt_irrefl _ ha
    simp [hne, h.keeps a ha hle]

theorem Yields.pop (h : P.Yields F property x y) (hx : P.Stays F x) (hfp : .fp ≠ register)
    (hsp : register ≠ .sp) :
    P.Rests F x ⟨y.state.pop register, y.active⟩ ∧
      property ((y.state.pop register).reg register) := by
  have hback : y.state.reg .sp + 4#32 = x.state.reg .sp := by
    rw [h.sp, BitVec.sub_add_cancel]
  refine ⟨⟨h.stays.move rfl (by simp [hfp]) rfl ?_ ?_, by simpa using hback, h.keeps⟩, ?_⟩
  · simpa [hback] using hx.below
  · simpa [hback] using hx.room
  · simpa [hsp, hback] using h.word

/-! ## Scratch registers -/

end Process

def Mips.Register.isScratch : Register → Bool
  | .t0 | .t1 | .a0 => true
  | _ => false

theorem Mips.Register.ne_of_isScratch {register : Register} (h : register.isScratch) :
    .fp ≠ register ∧ .sp ≠ register ∧ .v0 ≠ register := by
  refine ⟨?_, ?_, ?_⟩ <;> rintro rfl <;> cases h

namespace Process

variable (P : Process) (F : Frame)

structure Sets (register : Register) (property : Word → Prop) (x y z : Config) : Prop where
  rests : P.Rests F x z
  word : property (z.state.reg register)
  others : ∀ r, r ≠ register → r ≠ .sp → z.state.reg r = y.state.reg r

variable {P F} {x y z : Config} {n : Nat} {register : Register} {property : Word → Prop}

theorem Rests.leads_set (h : P.Rests F x y) {operation : Operation} {comment : Option String}
    (hquiet : operation.isQuiet) (hscratch : register.isScratch)
    (hexec : ∀ t, P.image.exec y.state operation = some t →
      ∃ word, property word ∧ t = (y.state.set register word).next) :
    P.Leads n [.emit (.op ⟨operation, comment⟩)] y (P.Sets F register property x y) := by
  obtain ⟨hfp, hsp, _⟩ := Register.ne_of_isScratch hscratch
  refine .quiet h.stays.flags hquiet fun t ht _ _ => ?_
  obtain ⟨word, hword, rfl⟩ := hexec t ht
  exact ⟨rfl, h.set hfp hsp word, by simpa using hword, fun r hr _ => by simp [hr]⟩

theorem Rests.leads_set_push (h : P.Rests F x y) (hP : P.Holds F) {operation : Operation}
    {comment : Option String} (hquiet : operation.isQuiet) (hscratch : register.isScratch)
    (hexec : ∀ t, P.image.exec y.state operation = some t →
      ∃ word, property word ∧ t = (y.state.set register word).next) :
    P.Leads n [.emit (.op ⟨operation, comment⟩), Action.push register] y fun z =>
      P.Yields F property x z ∧ ∀ r, r ≠ register → r ≠ .sp → z.state.reg r = y.state.reg r := by
  refine (h.leads_set hquiet hscratch hexec).cons fun z hz => ?_
  refine (hz.rests.push hP hz.word).mono fun w hw => ⟨hw.1, fun r hr hsp => ?_⟩
  rw [hw.2 r hsp, hz.others r hr hsp]

theorem Yields.leads_pop (h : P.Yields F property x y) (hx : P.Stays F x)
    (hscratch : register.isScratch) :
    P.Leads n [Action.pop register] y (P.Sets F register property x y) := by
  obtain ⟨hfp, hsp, hv0⟩ := Register.ne_of_isScratch hscratch
  have hquiet : P.track y (.lw register (.indexed wordSize .sp)) = y.active := by
    cases register <;> first | rfl | exact absurd rfl hv0
  obtain ⟨hrests, hword⟩ := h.pop hx hfp hsp.symm
  refine .pop h.stays.flags hsp.symm ?_
  rw [hquiet]
  exact ⟨hrests, hword, fun r hr hr' => by simp [hr, hr']⟩

/-! ## Running and pushing -/

/-- The code leaves the stack as it is. -/
def Runs (P : Process) (F : Frame) (n : Nat) (script : Script) : Prop :=
  ∀ x, P.Stays F x → P.Leads n script x (P.Rests F x)

def Pushes (P : Process) (F : Frame) (n : Nat) (script : Script) (property : Word → Prop) : Prop :=
  ∀ x, P.Stays F x → P.Leads n script x (P.Yields F property x)

variable {a b : Script} {post : Config → Prop}

theorem Runs.inert (h : ∀ action ∈ a, action.isInert) : P.Runs F n a :=
  fun _ hx => .inert hx.flags h ((Rests.refl hx).past a)

theorem Runs.append (ha : P.Runs F n a) (hb : P.Runs F n b) : P.Runs F n (a ++ b) :=
  fun x hx => (ha x hx).seq fun y hy => (hb y hy.stays).mono fun _ => hy.trans

theorem Runs.pushes (ha : P.Runs F n a) (hb : P.Pushes F n b property) :
    P.Pushes F n (a ++ b) property :=
  fun x hx => (ha x hx).seq fun y hy => (hb y hy.stays).mono fun _ => hy.yields

theorem Pushes.pop (ha : P.Pushes F n a property) (hscratch : register.isScratch)
    (hx : P.Stays F x)
    (hb : ∀ z, P.Rests F x z → property (z.state.reg register) → P.Leads n b z post) :
    P.Leads n (a ++ Action.pop register :: b) x post :=
  (ha x hx).seq fun _ hy => (hy.leads_pop hx hscratch).cons fun z hz => hb z hz.rests hz.word

end Process

end StackMips
