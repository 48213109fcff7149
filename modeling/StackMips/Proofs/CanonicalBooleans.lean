import StackMips.Proofs.Booleans.Function

/-!
# Booleans stay canonical

In a run of an accepted program, boolean variables hold 0 or 1 as long as the words that are read
into them do, and so do the locals of a function when it is called.  Then all tests agree on what
is true.
-/

namespace StackMips

open Mips

namespace Process

variable {P : Process} {x y : Config}

/-- The entry point is about to run, and all boolean variables hold 0 or 1. -/
structure Starts (P : Process) (x : Config) : Prop where
  entry : ∃ fn ∈ P.resolved.program.functions, P.resolved.context.isEntryPoint fn.id.name ∧
    P.image.target (P.resolved.context.functionLabel fn.id.name) = some x.state.pc ∧
    x.active = [fn.activation x.state] ∧
    P.floor + 4 * (fn.frameSize + 1) ≤ (fn.activation x.state).frame.toNat
  flags : ∀ a ∈ P.flags x.active, (x.state.mem a).IsFlag

/-- A run that has started is safe for any number of steps. -/
theorem Hosts.safe {program : Program} {options : Options} {assembly : Assembly}
    (hanalyze : program.analyze { options } = .done P.resolved [])
    (hemits : P.resolved.Emits assembly) (h : P.Hosts assembly) (hx : P.Starts x) (n : Nat) :
    P.Safe n x := by
  obtain ⟨fn, hfn, hentry, hpc, hactive, hroom⟩ := hx.entry
  let F : Frame :=
    { fn
      top := (fn.activation x.state).frame
      outer := []
      back := x.state.reg .ra
      link := x.state.reg .fp
      before := x.state.mem }
  have hF : P.Holds F := (h.valid hanalyze hemits).holds hfn hroom (by simp [F])
  have henters : P.Enters F x :=
    { pc := hpc
      active := hactive
      sp := (BitVec.add_sub_cancel _ _).symm
      ra := rfl
      fp := rfl
      above := fun _ _ => rfl
      flags := hx.flags }
  refine h.callable hanalyze hemits n F hfn hF (fun hother => ?_) x henters
  rw [hentry] at hother
  cases hother

/-- An accepted program is loaded, one word for each of its lines. -/
def load (resolved : Resolved) (assembly : Assembly)
    (hnodup : (assembly.lines.filterMap Line.label?).Nodup)
    (hsize : assembly.lines.length < 2 ^ 20) : Process where
  resolved
  image := .load assembly.lines hnodup hsize
  floor := Image.dataBase + 4 * assembly.lines.length

theorem hosts_load {resolved : Resolved} {assembly : Assembly}
    {hnodup : (assembly.lines.filterMap Line.label?).Nodup}
    {hsize : assembly.lines.length < 2 ^ 20} :
    (load resolved assembly hnodup hsize).Hosts assembly where
  lines := rfl
  data decl _ := by
    have hle : Image.lineOf assembly.lines (globalLabel decl.id.name) ≤ assembly.lines.length :=
      List.findIdx_le_length
    simp only [load, Image.load, BitVec.toNat_ofNat, Image.dataBase]
    omega

def entry? (P : Process) : Option FnDecl :=
  P.resolved.program.functions.find? fun fn => P.resolved.context.isEntryPoint fn.id.name

/-- A state in which the entry point is about to run.  Nothing is known of the stack and of the
result register: here they hold 2. -/
def boot (P : Process) (input : List Word) : Config where
  state :=
    { pc := (P.entry?.bind fun fn =>
        P.image.target (P.resolved.context.functionLabel fn.id.name)).getD 0
      reg
        | .sp => 0x7fffeffc
        | .v0 => 2
        | _ => 0
      mem a := if P.floor < a.toNat then 2 else 0
      input
      events := [] }
  active := P.entry?.toList.map fun fn => ⟨fn, 0x7fffeffc, false⟩

theorem starts_boot {input : List Word}
    (h : P.entry?.any fun fn => fn.formals.isEmpty ∧
      (P.image.target (P.resolved.context.functionLabel fn.id.name)).isSome ∧
      P.floor + 4 * (fn.frameSize + 1) ≤ (0x7fffeffc : Word).toNat)
    (hflags : ∀ a ∈ P.flags (P.boot input).active, ((P.boot input).state.mem a).IsFlag) :
    P.Starts (P.boot input) := by
  cases hfn : P.entry? with
  | none => simp [hfn] at h
  | some fn =>
      simp only [hfn, Option.any_some, decide_eq_true_eq, List.isEmpty_iff] at h
      obtain ⟨hformals, htarget, hroom⟩ := h
      obtain ⟨pc, hpc⟩ := Option.isSome_iff_exists.mp htarget
      have hactivation : fn.activation (P.boot input).state = ⟨fn, 0x7fffeffc, false⟩ := by
        simp [FnDecl.activation, boot, hformals]
      have hentry := List.find?_some (a := fn) hfn
      refine ⟨⟨fn, List.mem_of_find?_eq_some hfn, hentry, ?_, ?_, ?_⟩, hflags⟩
      · simp [boot, hfn, hpc]
      · simp [boot, hfn, FnDecl.activation, hformals]
      · rw [hactivation]
        exact hroom

/-! ## What is stored -/

theorem Advances.exec (h : P.Advances x y) {operation : Operation}
    (hoperation : P.image.operation? x.state = some operation) :
    P.image.exec x.state operation = some y.state ∧ y.active = P.track x operation := by
  have hstep := h.step
  have hactive := h.active
  rw [hoperation] at hactive
  refine ⟨?_, hactive⟩
  obtain ⟨line, hline, hnext⟩ := Option.bind_eq_some_iff.mp hoperation
  obtain ⟨instr, hinstr, rfl⟩ := Option.map_eq_some_iff.mp hnext
  rw [Image.step, hline, Option.bind_some, Image.execLine, hinstr] at hstep
  exact hstep

/-- A word that is stored into a boolean variable is there afterwards. -/
theorem Canonical.isFlag_of_sw (h : P.Canonical y) (hstep : P.Advances x y) {src : Register}
    {address : Address} (hoperation : P.image.operation? x.state = some (.sw src address))
    (hflag : P.image.address x.state address ∈ P.flags x.active) :
    (x.state.reg src).IsFlag := by
  obtain ⟨hexec, hactive⟩ := hstep.exec hoperation
  have hword := h.flags (P.image.address x.state address) (hactive ▸ hflag)
  rw [Image.eq_of_sw hexec] at hword
  simpa using hword

/-- The parameters of a function are the words that were pushed before the call. -/
theorem Canonical.isFlag_of_jal (hP : P.Valid) (h : P.Canonical y) (hstep : P.Advances x y)
    {fn : FnDecl} (hfn : fn ∈ P.resolved.program.functions)
    (hoperation : P.image.operation? x.state =
      some (.jal (P.resolved.context.functionLabel fn.id.name)))
    {i : Nat} {decl : VarDecl} (hdecl : fn.formals[i]? = some decl) (hbool : decl.type = .bool) :
    (x.state.mem ((fn.activation x.state).frame.below i)).IsFlag := by
  obtain ⟨hexec, hactive⟩ := hstep.exec hoperation
  obtain ⟨pc, _, hy⟩ := Option.map_eq_some_iff.mp hexec
  obtain ⟨index, hframed⟩ := hP.framed fn hfn
  have hmem : decl ∈ fn.declared := List.mem_append_left _ (List.mem_of_getElem? hdecl)
  obtain ⟨_, _, symbol, _, hsymbol, _⟩ := hframed.symbol_of_mem hmem
  have hflag : (fn.activation x.state).frame.below i ∈ P.flags y.active := by
    rw [hactive, track, hP.callee fn hfn, flags_active]
    refine List.mem_append_right _ (List.mem_append_left _ ?_)
    rw [← hframed.address_formal hdecl hsymbol]
    exact Arena.mem_addresses.mpr
      ⟨decl, List.mem_filter.mpr ⟨hmem, by simp [VarDecl.isBool, hbool]⟩, symbol, hsymbol, rfl⟩
  have hword := h.flags _ hflag
  rwa [← hy] at hword

end Process

theorem Mips.Word.IsFlag.eq_one_iff {word : Word} (h : word.IsFlag) : word = 1 ↔ word ≠ 0 := by
  rcases h with rfl | rfl <;> simp

namespace Program

/-- In every run of an accepted program that starts with 0 or 1 in its boolean variables, the
boolean variables of the program and of all active functions hold 0 or 1, every word that is tested
is 1 unless it is 0, and every word that is stored into a boolean variable or passed to a boolean
parameter is 0 or 1.  The runs are those in which a word that is read into a boolean variable is 0
or 1, a function that is called finds room for its frame and 0 or 1 in its boolean locals, a boolean
function that is left without a return statement leaves 0 or 1 in `$v0`, and the stack stays above
the data. -/
theorem compile_keeps_booleans {program linked : Program} {options : Options}
    {assembly : Assembly} (h : program.compile options = .ok (linked, .ok assembly)) :
    ∃ resolved, program.analyze { options } = .done resolved [] ∧ linked = resolved.program ∧
      ∀ P : Process, P.resolved = resolved → P.Hosts assembly → ∀ start, P.Starts start →
        ∀ x, Relation.ReflTransGen P.Advances start x →
          (∀ a ∈ P.flags x.active, (x.state.mem a).IsFlag) ∧
          (∀ operation ∈ P.image.operation? x.state, ∀ register ∈ operation.tested?,
            (x.state.reg register = 1 ↔ x.state.reg register ≠ 0)) ∧
          ∀ y, P.Advances x y →
            (∀ src address, P.image.operation? x.state = some (.sw src address) →
              P.image.address x.state address ∈ P.flags x.active → (x.state.reg src).IsFlag) ∧
            ∀ fn ∈ linked.functions, P.image.operation? x.state =
                some (.jal (P.resolved.context.functionLabel fn.id.name)) →
              ∀ (i : Nat) (decl : VarDecl), fn.formals[i]? = some decl → decl.type = .bool →
                (x.state.mem ((fn.activation x.state).frame.below i)).IsFlag := by
  obtain ⟨resolved, hanalyze, rfl, rfl, hemits⟩ := emits_of_compile h
  refine ⟨resolved, hanalyze, rfl, ?_⟩
  rintro P rfl hhosts start hstart x hrun
  have hcanonical : ∀ y, Relation.ReflTransGen P.Advances start y → P.Canonical y :=
    fun y => Process.canonical_of_safe (hhosts.safe hanalyze hemits hstart)
  refine ⟨(hcanonical x hrun).flags, ?_, fun y hstep => ⟨?_, ?_⟩⟩
  · intro operation hoperation register hregister
    exact ((hcanonical x hrun).tested operation hoperation register hregister).eq_one_iff
  · intro src address hoperation hflag
    exact (hcanonical y (hrun.tail hstep)).isFlag_of_sw hstep hoperation hflag
  · intro fn hfn hoperation i decl hdecl hbool
    exact (hcanonical y (hrun.tail hstep)).isFlag_of_jal (hhosts.valid hanalyze hemits) hstep hfn
      hoperation hdecl hbool

theorem analyze_of_compile {program linked : Program} {options : Options} {assembly : Assembly}
    (h : program.compile options = .ok (linked, .ok assembly)) :
    program.analyze { options } = .done (program.linked { options }) [] := by
  obtain ⟨resolved, hanalyze, -, -, -⟩ := emits_of_compile h
  rw [hanalyze, (linked_of_resolve (resolve_of_analyze hanalyze)).1]

def toggle : Program where
  decls := [
    .var ⟨.bool, ⟨"b", ⟨1, 6⟩, none⟩⟩,
    .fn ⟨.bool, ⟨"toggle", ⟨2, 6⟩, none⟩, [⟨.bool, ⟨"p", ⟨2, 18⟩, none⟩⟩], ⟨[], [
      .ret (some (.unary .not (.name ⟨"p", ⟨3, 11⟩, none⟩))) ⟨3, 3⟩]⟩⟩,
    .fn ⟨.void, ⟨"main", ⟨5, 6⟩, none⟩, [], ⟨[], [
      .read (.name ⟨"b", ⟨6, 10⟩, none⟩),
      .assign (.name ⟨"b", ⟨7, 3⟩, none⟩)
        (.call ⟨"toggle", ⟨7, 7⟩, none⟩ [.name ⟨"b", ⟨7, 14⟩, none⟩])]⟩⟩]

def toggleProcess : Process :=
  .load (toggle.linked {}) (toggle.code {}) (by decide +kernel) (by decide +kernel)

/-- The word 1 is read, stored, passed to the function and tested there. -/
theorem toggle_keeps_booleans :
    ∃ x, Relation.ReflTransGen toggleProcess.Advances (toggleProcess.boot [1]) x ∧
      (toggleProcess.flags x.active).map x.state.mem = [1, 1] ∧
      toggleProcess.image.operation? x.state = some (.alu .seq .t0 .t0 (.imm 0)) ∧
      (∀ a ∈ toggleProcess.flags x.active, (x.state.mem a).IsFlag) ∧
      (x.state.reg .t0 = 1 ↔ x.state.reg .t0 ≠ 0) := by
  have hcompile : toggle.compile {} = .ok ((toggle.linked {}).program, .ok (toggle.code {})) :=
    compile_of_check (by decide) (by decide) (by decide) rfl rfl rfl
  have hstarts : toggleProcess.Starts (toggleProcess.boot [1]) :=
    Process.starts_boot (by decide +kernel) (by decide +kernel)
  have hrun : ((iterate? toggleProcess.advance? 34 (toggleProcess.boot [1])).map fun x =>
      ((toggleProcess.flags x.active).map x.state.mem, toggleProcess.image.operation? x.state)) =
      some ([1, 1], some (.alu .seq .t0 .t0 (.imm 0))) := by decide +kernel
  obtain ⟨x, hx, hvalues⟩ := Option.map_eq_some_iff.mp hrun
  obtain ⟨hwords, hnext⟩ := Prod.mk.inj hvalues
  have hreaches : Relation.ReflTransGen toggleProcess.Advances (toggleProcess.boot [1]) x :=
    Relation.ReflTransGen.mono (fun _ _ => toggleProcess.advance?_eq_some_iff.mp) _ _
      (reaches_of_iterate? hx)
  obtain ⟨resolved, hresolved, _, hbooleans⟩ := compile_keeps_booleans hcompile
  cases (analyze_of_compile hcompile).symm.trans hresolved
  obtain ⟨hflags, htested, _⟩ :=
    hbooleans toggleProcess rfl Process.hosts_load _ hstarts x hreaches
  exact ⟨x, hreaches, hwords, hnext, hflags, htested _ hnext .t0 rfl⟩

/-- The code of the program can put a word that is neither 0 nor 1 into a boolean variable, from a
state in which all boolean variables hold 0 or 1. -/
def LosesBooleans (program : Program) : Prop :=
  ∃ resolved assembly, program.analyze {} = .done resolved [] ∧
    program.compile {} = .ok (resolved.program, .ok assembly) ∧
    ∃ P : Process, P.resolved = resolved ∧ P.Hosts assembly ∧ ∃ start, P.Starts start ∧
      ∃ t, P.image.Steps start.state t ∧
        ∃ a ∈ P.flags start.active, ¬(t.mem a).IsFlag

theorem losesBooleans_of_run {program : Program} (P : Process) (input : List Word) (count : Nat)
    (hresolved : P.resolved = program.linked {})
    (hcompile : program.compile {} = .ok ((program.linked {}).program, .ok (program.code {})))
    (hhosts : P.Hosts (program.code {})) (hstarts : P.Starts (P.boot input))
    (hrun : (iterate? P.image.step count (P.boot input).state).any fun t =>
      (P.flags (P.boot input).active).any fun a => ¬(t.mem a).IsFlag) :
    program.LosesBooleans := by
  cases ht : iterate? P.image.step count (P.boot input).state with
  | none => simp [ht] at hrun
  | some t =>
      rw [ht, Option.any_some, List.any_eq_true] at hrun
      obtain ⟨a, ha, hlost⟩ := hrun
      exact ⟨_, _, analyze_of_compile hcompile, hcompile, P, hresolved, hhosts, _, hstarts, t,
        reaches_of_iterate? ht, a, ha, by simpa using hlost⟩

/-- A boolean is read. -/
def reader : Program where
  decls := [.var ⟨.bool, ⟨"b", ⟨1, 6⟩, none⟩⟩,
    .fn ⟨.void, ⟨"main", ⟨2, 6⟩, none⟩, [], ⟨[], [.read (.name ⟨"b", ⟨3, 10⟩, none⟩)]⟩⟩]

/-- A local is used before it gets a value. -/
def leftover : Program where
  decls := [.var ⟨.bool, ⟨"b", ⟨1, 6⟩, none⟩⟩,
    .fn ⟨.void, ⟨"f", ⟨2, 6⟩, none⟩, [], ⟨[⟨.bool, ⟨"x", ⟨3, 8⟩, none⟩⟩], [
      .assign (.name ⟨"b", ⟨4, 3⟩, none⟩) (.name ⟨"x", ⟨4, 7⟩, none⟩)]⟩⟩,
    .fn ⟨.void, ⟨"main", ⟨6, 6⟩, none⟩, [], ⟨[], [.call ⟨"f", ⟨7, 3⟩, none⟩ []]⟩⟩]

/-- A function is left without a return statement. -/
def silent : Program where
  decls := [.var ⟨.bool, ⟨"b", ⟨1, 6⟩, none⟩⟩,
    .fn ⟨.bool, ⟨"f", ⟨2, 6⟩, none⟩, [], ⟨[], []⟩⟩,
    .fn ⟨.void, ⟨"main", ⟨4, 6⟩, none⟩, [], ⟨[], [
      .assign (.name ⟨"b", ⟨5, 3⟩, none⟩) (.call ⟨"f", ⟨5, 7⟩, none⟩ [])]⟩⟩]

/-- A word that is read is not looked at, a local keeps what was on the stack before, and without a
return statement the result is what was in `$v0` before. -/
theorem booleans_get_lost :
    reader.LosesBooleans ∧ leftover.LosesBooleans ∧ silent.LosesBooleans := by
  refine ⟨?_, ?_, ?_⟩
  · exact losesBooleans_of_run
      (.load (reader.linked {}) (reader.code {}) (by decide +kernel) (by decide +kernel)) [2] 15
      rfl (compile_of_check (by decide) (by decide) (by decide) rfl rfl rfl) Process.hosts_load
      (Process.starts_boot (by decide +kernel) (by decide +kernel)) (by decide +kernel)
  · exact losesBooleans_of_run
      (.load (leftover.linked {}) (leftover.code {}) (by decide +kernel) (by decide +kernel)) [] 28
      rfl (compile_of_check (by decide) (by decide) (by decide) rfl rfl rfl) Process.hosts_load
      (Process.starts_boot (by decide +kernel) (by decide +kernel)) (by decide +kernel)
  · exact losesBooleans_of_run
      (.load (silent.linked {}) (silent.code {}) (by decide +kernel) (by decide +kernel)) [] 32
      rfl (compile_of_check (by decide) (by decide) (by decide) rfl rfl rfl) Process.hosts_load
      (Process.starts_boot (by decide +kernel) (by decide +kernel)) (by decide +kernel)

end Program

end StackMips
