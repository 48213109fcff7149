import Mathlib.Data.List.Forall2
import Mathlib.Data.List.Infix
import Mathlib.Data.List.Nodup
import StackMips.Scope

/-!
# Symbol tables after any history

A symbol table is used by opening scopes, closing them and declaring names.  Everything it answers
can be read off the history of these requests: which of the scopes that were opened have not been
closed since, and which declarations were accepted in each of them.

The scopes of a history are named by the requests that opened them.  A scope is still open when the
requests behind the one that opened it close no more scopes than they open, at any time.
-/

namespace StackMips.SymbolTable

inductive Request where
  | enter
  | leave
  | declare (name : String) (symbol : SymbolId)
  deriving DecidableEq

def attempt (table : SymbolTable) : Request → Except Error SymbolTable
  | .enter => .ok table.enter
  | .leave => table.leave
  | .declare name symbol => table.declare name symbol

/-- A request that is refused leaves the table as it is. -/
def after (table : SymbolTable) (request : Request) : SymbolTable :=
  match table.attempt request with
  | .ok changed => changed
  | .error _ => table

def run (table : SymbolTable) (requests : List Request) : SymbolTable :=
  requests.foldl after table

@[simp] theorem run_nil (table : SymbolTable) : table.run [] = table := rfl

@[simp] theorem run_cons (table : SymbolTable) (request : Request) (requests : List Request) :
    table.run (request :: requests) = (table.after request).run requests := rfl

theorem run_append (table : SymbolTable) (requests more : List Request) :
    table.run (requests ++ more) = (table.run requests).run more :=
  List.foldl_append

@[simp] theorem after_enter (table : SymbolTable) : table.after .enter = table.enter := rfl

theorem after_of_ok {table changed : SymbolTable} {request : Request}
    (h : table.attempt request = .ok changed) : table.after request = changed := by
  simp [after, h]

theorem after_of_error {table : SymbolTable} {request : Request} {error : Error}
    (h : table.attempt request = .error error) : table.after request = table := by
  simp [after, h]

theorem leave_eq_error_iff {table : SymbolTable} {error : Error} :
    table.leave = .error error ↔ error = .onlyGlobalScope ∧ table.depth = 1 := by
  rcases table with ⟨innermost, _ | ⟨scope, scopes⟩⟩ <;> simp [leave, depth, eq_comm]

theorem declare_eq_error_iff {table : SymbolTable} {name : String} {symbol : SymbolId}
    {error : Error} :
    table.declare name symbol = .error error ↔
      error = .duplicate name ∧ (table.lookupInnermost name).isSome := by
  cases h : table.innermost.lookup name <;>
    simp [declare, Scope.define, lookupInnermost, h, eq_comm]

/-- The requests close none of the scopes that were open before them. -/
def Keeps (requests : List Request) : Prop :=
  ∀ start, start <+: requests → start.count .leave ≤ start.count .enter

/-- The requests close all the scopes that they open and no other. -/
def Balanced (requests : List Request) : Prop :=
  Keeps requests ∧ requests.count .leave = requests.count .enter

instance (requests : List Request) : Decidable (Keeps requests) :=
  decidable_of_iff (∀ start ∈ requests.inits, start.count .leave ≤ start.count .enter)
    (by simp [Keeps])

instance (requests : List Request) : Decidable (Balanced requests) :=
  inferInstanceAs (Decidable (_ ∧ _))

theorem keeps_nil : Keeps [] := by
  intro start hstart
  simp [List.prefix_nil.mp hstart]

theorem keeps_snoc {requests : List Request} {request : Request} :
    Keeps (requests ++ [request]) ↔
      Keeps requests ∧
        (requests ++ [request]).count .leave ≤ (requests ++ [request]).count .enter := by
  simp only [Keeps, List.prefix_concat_iff, forall_eq_or_imp]
  exact and_comm

theorem Keeps.le {requests : List Request} (h : Keeps requests) :
    requests.count .leave ≤ requests.count .enter :=
  h requests List.prefix_rfl

/-- The request at this index opened a scope, and the requests behind it have not closed it. -/
def Unclosed (history : List Request) (index : Nat) : Prop :=
  history[index]? = some .enter ∧ Keeps (history.drop (index + 1))

instance (history : List Request) (index : Nat) : Decidable (Unclosed history index) :=
  inferInstanceAs (Decidable (_ ∧ _))

/-- The requests that opened the scopes which are open, from the inside out. -/
def unclosed (history : List Request) : List Nat :=
  (List.range history.length).reverse.filter (Unclosed history)

/-- The open scopes from the inside out.  No request opened the global one. -/
def openScopes (history : List Request) : List (Option Nat) :=
  (unclosed history).map some ++ [none]

def current (history : List Request) : Option Nat :=
  (unclosed history).head?

def DeclaredIn (history : List Request) (scope : Option Nat) (name : String) (symbol : SymbolId) :
    Prop :=
  ∃ index, history[index]? = some (.declare name symbol) ∧ current (history.take index) = scope ∧
    ∃ changed, (run {} (history.take index)).declare name symbol = .ok changed

theorem Unclosed.lt {history : List Request} {index : Nat} (h : Unclosed history index) :
    index < history.length :=
  (List.getElem?_eq_some_iff.mp h.1).1

theorem mem_unclosed {history : List Request} {index : Nat} :
    index ∈ unclosed history ↔ Unclosed history index := by
  simp only [unclosed, List.mem_filter, List.mem_reverse, List.mem_range, decide_eq_true_eq,
    and_iff_right_iff_imp]
  exact Unclosed.lt

theorem unclosed_sorted (history : List Request) : (unclosed history).Pairwise (· > ·) :=
  (List.pairwise_reverse.mpr List.pairwise_lt_range).filter _

theorem unclosed_snoc_length {history : List Request} {request : Request} :
    Unclosed (history ++ [request]) history.length ↔ request = .enter := by
  simp [Unclosed, keeps_nil]

theorem unclosed_snoc_of_lt {history : List Request} {request : Request} {index : Nat}
    (h : index < history.length) :
    Unclosed (history ++ [request]) index ↔
      history[index]? = some .enter ∧ Keeps (history.drop (index + 1) ++ [request]) := by
  rw [Unclosed, List.getElem?_append_left h, List.drop_append_of_le_length (by omega)]

/-- A request behind the end is the newest one, and decides about the others by what it adds to the
requests behind them. -/
theorem unclosed_snoc (history : List Request) (request : Request) :
    unclosed (history ++ [request]) =
      (if request = .enter then [history.length] else []) ++
        (unclosed history).filter fun index =>
          Keeps (history.drop (index + 1) ++ [request]) := by
  have hold : (List.range history.length).reverse.filter (Unclosed (history ++ [request])) =
      (unclosed history).filter fun index => Keeps (history.drop (index + 1) ++ [request]) := by
    rw [unclosed, List.filter_filter]
    refine List.filter_congr fun index hindex => ?_
    have hlt : index < history.length := by simpa using hindex
    rw [← Bool.decide_and, decide_eq_decide, unclosed_snoc_of_lt hlt, Unclosed, keeps_snoc]
    tauto
  rw [unclosed, List.length_append, List.length_singleton, List.range_succ, List.reverse_append,
    List.reverse_singleton, List.singleton_append, List.filter_cons, hold]
  by_cases h : request = .enter <;> simp [unclosed_snoc_length, h]

theorem unclosed_snoc_of_ne_leave (history : List Request) {request : Request}
    (h : request ≠ .leave) :
    unclosed (history ++ [request]) =
      (if request = .enter then [history.length] else []) ++ unclosed history := by
  rw [unclosed_snoc, List.filter_eq_self.mpr]
  intro index hindex
  have hkeeps := (mem_unclosed.mp hindex).2
  have hle := hkeeps.le
  simp only [decide_eq_true_eq, keeps_snoc, List.count_append, List.count_singleton]
  exact ⟨hkeeps, by simp [h]; omega⟩

theorem unclosed_enter (history : List Request) :
    unclosed (history ++ [.enter]) = history.length :: unclosed history :=
  unclosed_snoc_of_ne_leave history (by decide)

theorem unclosed_declare (history : List Request) (name : String) (symbol : SymbolId) :
    unclosed (history ++ [.declare name symbol]) = unclosed history :=
  unclosed_snoc_of_ne_leave history (by simp)

theorem unclosed_drop {history : List Request} {start index : Nat} :
    Unclosed (history.drop start) index ↔ Unclosed history (start + index) := by
  simp only [Unclosed, List.getElem?_drop, List.drop_drop, Nat.add_assoc]

/-- Requests that leave a scope of their own open open more scopes than they close. -/
theorem Keeps.lt_of_unclosed {requests : List Request} (h : Keeps requests) {index : Nat}
    (hindex : Unclosed requests index) : requests.count .leave < requests.count .enter := by
  obtain ⟨hlt, hget⟩ := List.getElem?_eq_some_iff.mp hindex.1
  have hsplit : requests =
      requests.take index ++ .enter :: requests.drop (index + 1) := by
    rw [← hget, ← List.drop_eq_getElem_cons hlt, List.take_append_drop]
  have hfirst := h _ (List.take_prefix index requests)
  have hrest := hindex.2.le
  rw [hsplit, List.count_append, List.count_append, List.count_cons, List.count_cons]
  simp only [beq_self_eq_true, if_true, reduceCtorEq, beq_iff_eq, if_false]
  omega

/-- Conversely, for each scope that such requests open beyond the ones they close there is a request
that opened it, and the requests behind it open as many scopes for good as lie inside it. -/
theorem Keeps.exists_unclosed {requests : List Request} (h : Keeps requests) (inside : Nat)
    (hinside : requests.count .leave + inside < requests.count .enter) :
    ∃ index, Unclosed requests index ∧
      (requests.drop (index + 1)).count .leave + inside =
        (requests.drop (index + 1)).count .enter := by
  induction requests using List.reverseRecOn generalizing inside with
  | nil => simp at hinside
  | append_singleton requests request ih =>
      have hkeeps := (keeps_snoc.mp h).1
      -- An older scope stays open, with the last request behind it.
      have holder (before : Nat) (hbefore : requests.count .leave + before < requests.count .enter)
          (hcount : [request].count .leave + inside = before + [request].count .enter) :
          ∃ index, Unclosed (requests ++ [request]) index ∧
            ((requests ++ [request]).drop (index + 1)).count .leave + inside =
              ((requests ++ [request]).drop (index + 1)).count .enter := by
        obtain ⟨index, hindex, hbalance⟩ := ih hkeeps before hbefore
        have hlt := hindex.lt
        refine ⟨index, ?_, ?_⟩
        · rw [unclosed_snoc_of_lt hlt, keeps_snoc, List.count_append, List.count_append]
          exact ⟨hindex.1, hindex.2, by omega⟩
        · rw [List.drop_append_of_le_length (by omega), List.count_append, List.count_append]
          omega
      simp only [List.count_append, List.count_singleton] at hinside
      cases request with
      | enter =>
          cases inside with
          | zero => exact ⟨requests.length, unclosed_snoc_length.mpr rfl, by simp⟩
          | succ inside => exact holder inside (by simp at hinside; omega) (by simp)
      | leave => exact holder (inside + 1) (by simp at hinside; omega) (by simp; omega)
      | declare name symbol => exact holder inside (by simpa using hinside) (by simp)

theorem unclosed_leave (history : List Request) :
    unclosed (history ++ [.leave]) = (unclosed history).tail := by
  rw [unclosed_snoc]
  have hsorted := unclosed_sorted history
  have hmem (index : Nat) : index ∈ unclosed history ↔ Unclosed history index := mem_unclosed
  cases hopen : unclosed history with
  | nil => rfl
  | cons newest older =>
      rw [hopen, List.pairwise_cons] at hsorted
      simp only [hopen, List.mem_cons] at hmem
      have hnewest : ¬ Keeps (history.drop (newest + 1) ++ [.leave]) := by
        intro hkeeps
        obtain ⟨hrest, hcount⟩ := keeps_snoc.mp hkeeps
        obtain ⟨index, hindex, -⟩ := hrest.exists_unclosed 0
          (by simp [List.count_append] at hcount; omega)
        rcases (hmem _).mpr (unclosed_drop.mp hindex) with heq | holder
        · omega
        · have := hsorted.1 _ holder
          omega
      have holder : ∀ index ∈ older, Keeps (history.drop (index + 1) ++ [.leave]) := by
        intro index hindex
        have hlt : newest > index := hsorted.1 index hindex
        have hkeeps := ((hmem index).mp (.inr hindex)).2
        have hinner : Unclosed (history.drop (index + 1)) (newest - (index + 1)) := by
          rw [unclosed_drop, Nat.add_sub_cancel' hlt]
          exact (hmem newest).mp (.inl rfl)
        have hcount := hkeeps.lt_of_unclosed hinner
        exact keeps_snoc.mpr ⟨hkeeps, by simp [List.count_append]; omega⟩
      simpa [hnewest] using holder

/-! ## What the scopes of the table bind -/

theorem openScopes_eq (history : List Request) :
    openScopes history = current history :: (openScopes history).tail := by
  cases h : unclosed history <;> simp [openScopes, current, h]

theorem openScopes_nodup (history : List Request) : (openScopes history).Nodup := by
  have hnodup : (unclosed history).Nodup :=
    (unclosed_sorted history).imp fun hgt => Nat.ne_of_gt hgt
  rw [openScopes, List.nodup_append]
  exact ⟨hnodup.map fun _ _ => Option.some.inj, List.nodup_singleton _, by simp⟩

theorem declaredIn_snoc {history : List Request} {request : Request} {scope : Option Nat}
    {name : String} {symbol : SymbolId} :
    DeclaredIn (history ++ [request]) scope name symbol ↔
      DeclaredIn history scope name symbol ∨
        request = .declare name symbol ∧ current history = scope ∧
          ∃ changed, (run {} history).declare name symbol = .ok changed := by
  constructor
  · rintro ⟨index, hget, hscope, haccepted⟩
    rcases Nat.lt_trichotomy index history.length with hlt | rfl | hgt
    · rw [List.getElem?_append_left hlt] at hget
      rw [List.take_append_of_le_length hlt.le] at hscope haccepted
      exact .inl ⟨index, hget, hscope, haccepted⟩
    · rw [List.take_left] at hscope haccepted
      exact .inr ⟨by simpa using hget, hscope, haccepted⟩
    · rw [List.getElem?_eq_none (by simp; omega)] at hget
      cases hget
  · rintro (⟨index, hget, hscope, haccepted⟩ | ⟨rfl, hscope, haccepted⟩)
    · have hlt := (List.getElem?_eq_some_iff.mp hget).1
      refine ⟨index, ?_⟩
      rw [List.getElem?_append_left hlt, List.take_append_of_le_length hlt.le]
      exact ⟨hget, hscope, haccepted⟩
    · refine ⟨history.length, ?_⟩
      rw [List.take_left]
      exact ⟨by simp, hscope, haccepted⟩

theorem DeclaredIn.opener_lt {history : List Request} {opener : Nat} {name : String}
    {symbol : SymbolId} (h : DeclaredIn history (some opener) name symbol) :
    opener < history.length := by
  obtain ⟨index, -, hscope, -⟩ := h
  have hlt := (mem_unclosed.mp (List.mem_of_head? hscope)).lt
  rw [List.length_take] at hlt
  omega

/-- The scope binds what has been declared in it, and nothing else. -/
def Records (history : List Request) (scope : Option Nat) (bindings : Scope) : Prop :=
  ∀ name symbol, bindings.lookup name = some symbol ↔ DeclaredIn history scope name symbol

theorem Records.snoc {history : List Request} {scope : Option Nat} {bindings : Scope}
    (h : Records history scope bindings) {request : Request}
    (hother : ∀ name symbol, request = .declare name symbol → current history = scope →
      ∃ error, (run {} history).declare name symbol = .error error) :
    Records (history ++ [request]) scope bindings := by
  intro name symbol
  rw [h, declaredIn_snoc, or_iff_left]
  rintro ⟨hrequest, hscope, changed, hok⟩
  obtain ⟨error, herror⟩ := hother name symbol hrequest hscope
  simp [herror] at hok

theorem Records.declared {history : List Request} {bindings extended : Scope} {name : String}
    {symbol : SymbolId} {changed : SymbolTable} (h : Records history (current history) bindings)
    (hok : (run {} history).declare name symbol = .ok changed)
    (hdefine : bindings.define name symbol = .ok extended) :
    Records (history ++ [.declare name symbol]) (current history) extended := by
  intro other bound
  rw [Scope.lookup_of_define hdefine, declaredIn_snoc, ← h]
  have hfree := (Scope.define_eq_ok_iff.mp hdefine).1
  by_cases hname : other = name
  · subst hname
    simp only [if_true, hfree, reduceCtorEq, false_or, Option.some.injEq, Request.declare.injEq,
      true_and]
    exact ⟨fun heq => ⟨heq, heq ▸ ⟨changed, hok⟩⟩, And.left⟩
  · simp [hname, Ne.symm hname]

def Recorded (history : List Request) (table : SymbolTable) : Prop :=
  List.Forall₂ (Records history) (openScopes history) table.scopes

theorem Recorded.innermost {history : List Request} {table : SymbolTable}
    (h : Recorded history table) : Records history (current history) table.innermost := by
  rw [Recorded, openScopes_eq, scopes, List.forall₂_cons] at h
  exact h.1

theorem Recorded.depth {history : List Request} {table : SymbolTable}
    (h : Recorded history table) : table.depth = 1 + (unclosed history).length := by
  have hlength := h.length_eq
  rw [openScopes, List.length_append, List.length_map, List.length_singleton, scopes,
    List.length_cons] at hlength
  rw [SymbolTable.depth]
  omega

theorem Recorded.enter {history : List Request} {table : SymbolTable}
    (h : Recorded history table) : Recorded (history ++ [.enter]) table.enter := by
  have hopen : openScopes (history ++ [.enter]) = some history.length :: openScopes history := by
    simp [openScopes, unclosed_enter]
  rw [Recorded, hopen]
  refine .cons (fun name symbol => ?_)
    (h.imp fun scope bindings hrecords => hrecords.snoc (by simp))
  have hnone : ¬ DeclaredIn history (some history.length) name symbol := fun hdeclared =>
    Nat.lt_irrefl _ hdeclared.opener_lt
  simp [SymbolTable.enter, declaredIn_snoc, hnone]

theorem Recorded.leave {history : List Request} {table : SymbolTable}
    (h : Recorded history table) : Recorded (history ++ [.leave]) (table.after .leave) := by
  have hkept : List.Forall₂ (Records (history ++ [.leave])) (openScopes history) table.scopes :=
    h.imp fun scope bindings hrecords => hrecords.snoc (by simp)
  have hdepth := h.depth
  rw [Recorded, openScopes, unclosed_leave]
  rcases table with ⟨bindings, _ | ⟨outer, outers⟩⟩
  · -- The global scope is the only one, and stays.
    have hnone : unclosed history = [] := by simpa [SymbolTable.depth] using hdepth
    rw [openScopes, hnone] at hkept
    rw [hnone]
    exact hkept
  · cases hunclosed : unclosed history with
    | nil => simp [SymbolTable.depth, hunclosed] at hdepth
    | cons newest older =>
        rw [openScopes, hunclosed] at hkept
        exact (List.forall₂_cons.mp hkept).2

theorem Recorded.declare {history : List Request} (h : Recorded history (run {} history))
    (name : String) (symbol : SymbolId) :
    Recorded (history ++ [.declare name symbol])
      ((run {} history).after (.declare name symbol)) := by
  have hopen : openScopes (history ++ [.declare name symbol]) = openScopes history := by
    rw [openScopes, unclosed_declare, openScopes]
  rw [Recorded, hopen]
  cases hattempt : (run {} history).attempt (.declare name symbol) with
  | error error =>
      rw [after_of_error hattempt]
      refine h.imp fun scope bindings hrecords => hrecords.snoc ?_
      rintro _ _ ⟨⟩ -
      exact ⟨error, hattempt⟩
  | ok changed =>
      rw [after_of_ok hattempt]
      have hnodup := openScopes_nodup history
      rw [openScopes_eq, List.nodup_cons] at hnodup
      obtain ⟨hfree, rfl⟩ := declare_eq_ok_iff.mp hattempt
      rw [Recorded, openScopes_eq, scopes, List.forall₂_cons] at h
      rw [openScopes_eq]
      refine .cons (h.1.declared hattempt (Scope.define_eq_ok_iff.mpr ⟨hfree, rfl⟩)) ?_
      -- The scopes around the current one are other scopes.
      have houter := (List.forall₂_and_left _ _).mpr
        ⟨fun scope hscope => (ne_of_mem_of_not_mem hscope hnodup.1).symm, h.2⟩
      exact houter.imp fun scope bindings hrecords =>
        hrecords.2.snoc fun _ _ _ hcurrent => absurd hcurrent hrecords.1

theorem recorded_run (history : List Request) : Recorded history (run {} history) := by
  induction history using List.reverseRecOn with
  | nil =>
      refine .cons (fun name symbol => ?_) .nil
      simp [DeclaredIn]
  | append_singleton history request ih =>
      rw [run_append, run_cons, run_nil]
      cases request with
      | enter => exact ih.enter
      | leave => exact ih.leave
      | declare name symbol => exact ih.declare name symbol

/-- The first scope that binds a name is the first one in which it was declared. -/
theorem findSome?_of_records {history : List Request} {scopes : List (Option Nat)}
    {tables : List Scope} (h : List.Forall₂ (Records history) scopes tables) {name : String}
    {symbol : SymbolId} :
    tables.findSome? (·.lookup name) = some symbol ↔
      ∃ inner scope outer, scopes = inner ++ scope :: outer ∧
        DeclaredIn history scope name symbol ∧
          ∀ closer ∈ inner, ∀ other, ¬ DeclaredIn history closer name other := by
  induction h with
  | nil => simp
  | @cons scope bindings scopes tables hrecords _ ih =>
      rw [List.findSome?_cons]
      cases hlookup : bindings.lookup name with
      | some bound =>
          have hbound := (hrecords name bound).mp hlookup
          constructor
          · rintro ⟨⟩
            exact ⟨[], scope, scopes, rfl, hbound, by simp⟩
          · rintro ⟨_ | ⟨closer, inner⟩, found, outer, hsplit, hdeclared, hcloser⟩
            · obtain ⟨rfl, -⟩ := List.cons_eq_cons.mp hsplit
              exact hlookup.symm.trans ((hrecords name symbol).mpr hdeclared)
            · obtain ⟨rfl, -⟩ := List.cons_eq_cons.mp hsplit
              exact absurd hbound (hcloser scope List.mem_cons_self bound)
      | none =>
          have hfree (other : SymbolId) : ¬ DeclaredIn history scope name other := by
            rw [← hrecords, hlookup]
            simp
          rw [ih]
          constructor
          · rintro ⟨inner, found, outer, rfl, hdeclared, hcloser⟩
            exact ⟨scope :: inner, found, outer, rfl, hdeclared,
              List.forall_mem_cons.mpr ⟨hfree, hcloser⟩⟩
          · rintro ⟨_ | ⟨closer, inner⟩, found, outer, hsplit, hdeclared, hcloser⟩
            · obtain ⟨rfl, -⟩ := List.cons_eq_cons.mp hsplit
              exact absurd hdeclared (hfree symbol)
            · obtain ⟨rfl, rfl⟩ := List.cons_eq_cons.mp hsplit
              exact ⟨inner, found, outer, rfl, hdeclared, (List.forall_mem_cons.mp hcloser).2⟩

/-! ## Balanced requests -/

theorem scopes_after_declare (table : SymbolTable) (name : String) (symbol : SymbolId) :
    ∃ innermost, (table.after (.declare name symbol)).scopes = innermost :: table.enclosing := by
  cases h : table.attempt (.declare name symbol) with
  | error error => exact ⟨table.innermost, by rw [after_of_error h, scopes]⟩
  | ok changed =>
      obtain ⟨-, rfl⟩ := declare_eq_ok_iff.mp h
      exact ⟨_, by rw [after_of_ok h, scopes]⟩

theorem after_leave {table : SymbolTable} {outer : Scope} {outers : List Scope}
    (h : table.enclosing = outer :: outers) : table.after .leave = ⟨outer, outers⟩ := by
  simp [after, attempt, SymbolTable.leave, h]

/-- Requests that keep the open scopes change the bindings of the innermost one only, and put the
scopes that they leave open inside it. -/
theorem Keeps.run_scopes {requests : List Request} (h : Keeps requests) (table : SymbolTable) :
    ∃ inside innermost, (table.run requests).scopes = inside ++ innermost :: table.enclosing ∧
      inside.length + requests.count .leave = requests.count .enter := by
  induction requests using List.reverseRecOn with
  | nil => exact ⟨[], table.innermost, rfl, rfl⟩
  | append_singleton requests request ih =>
      obtain ⟨hkeeps, hle⟩ := keeps_snoc.mp h
      obtain ⟨inside, innermost, hscopes, hlength⟩ := ih hkeeps
      rw [run_append, run_cons, run_nil]
      simp only [List.count_append, List.count_singleton] at hle ⊢
      cases request with
      | enter =>
          exact ⟨{} :: inside, innermost, by rw [after_enter, scopes, enter, hscopes]; rfl,
            by simp; omega⟩
      | leave =>
          cases inside with
          | nil => simp at hle hlength; omega
          | cons newest inside =>
              have henclosing :
                  (table.run requests).enclosing = inside ++ innermost :: table.enclosing :=
                (List.cons_eq_cons.mp hscopes).2
              refine ⟨inside, innermost, ?_, by simp at hlength ⊢; omega⟩
              cases houter : (table.run requests).enclosing with
              | nil => simp [houter] at henclosing
              | cons outer outers => rw [after_leave houter, scopes, ← henclosing, houter]
      | declare name symbol =>
          obtain ⟨changed, hchanged⟩ := scopes_after_declare (table.run requests) name symbol
          cases inside with
          | nil =>
              exact ⟨[], changed, by rw [hchanged, (List.cons_eq_cons.mp hscopes).2]; rfl,
                by simpa using hlength⟩
          | cons newest inside =>
              exact ⟨changed :: inside, innermost,
                by rw [hchanged, (List.cons_eq_cons.mp hscopes).2]; rfl, by simpa using hlength⟩

/-- A scope that is opened and, behind balanced requests, closed again leaves no trace. -/
theorem Balanced.run_enclosed {requests : List Request} (h : Balanced requests)
    (table : SymbolTable) : table.run (.enter :: requests ++ [.leave]) = table := by
  obtain ⟨inside, innermost, hscopes, hlength⟩ := h.1.run_scopes table.enter
  have hinside : inside = [] := List.eq_nil_of_length_eq_zero (by have := h.2; omega)
  subst hinside
  have henclosing : (table.enter.run requests).enclosing = table.innermost :: table.enclosing :=
    (List.cons_eq_cons.mp hscopes).2
  rw [List.cons_append, run_cons, after_enter, run_append, run_cons, run_nil,
    after_leave henclosing]

/-! ## Any history -/

structure Answers (history : List Request) (table : SymbolTable) : Prop where
  /-- There is the global scope, and one for each request whose scope has not been closed. -/
  depth : table.depth = 1 + (unclosed history).length
  leave_error : ∀ error,
    table.leave = .error error ↔ table.depth = 1 ∧ error = .onlyGlobalScope
  declare_error : ∀ name symbol error,
    table.declare name symbol = .error error ↔
      (∃ bound, DeclaredIn history (current history) name bound) ∧ error = .duplicate name
  lookupInnermost : ∀ name symbol,
    table.lookupInnermost name = some symbol ↔ DeclaredIn history (current history) name symbol
  lookup : ∀ name symbol,
    table.lookup name = some symbol ↔
      ∃ inner scope outer, openScopes history = inner ++ scope :: outer ∧
        DeclaredIn history scope name symbol ∧
          ∀ closer ∈ inner, ∀ other, ¬ DeclaredIn history closer name other

theorem Recorded.answers {history : List Request} {table : SymbolTable}
    (h : Recorded history table) : Answers history table where
  depth := h.depth
  leave_error error := by rw [leave_eq_error_iff, and_comm]
  declare_error name symbol error := by
    rw [declare_eq_error_iff, and_comm, Option.isSome_iff_exists]
    simp only [← h.innermost name, SymbolTable.lookupInnermost]
  lookupInnermost := h.innermost
  lookup _ _ := findSome?_of_records h

/-- After any requests to a new table, refused ones among them, the table answers as their history
says.  A request that is refused changes nothing, and a scope that is opened and closed again around
balanced requests leaves the table, and with it every lookup, as it was. -/
theorem run_answers (history : List Request) :
    Answers history (run {} history) ∧
      (∀ request changed, (run {} history).attempt request = .ok changed →
        run {} (history ++ [request]) = changed) ∧
      (∀ request error, (run {} history).attempt request = .error error →
        run {} (history ++ [request]) = run {} history) ∧
      ∀ requests, Balanced requests →
        run {} (history ++ (.enter :: requests ++ [.leave])) = run {} history := by
  simp only [run_append _ history]
  exact ⟨(recorded_run history).answers, fun _ _ => after_of_ok, fun _ _ => after_of_error,
    fun requests hbalanced => hbalanced.run_enclosed _⟩

/-- Requests that declare a name twice in one scope, and close one scope too many. -/
def shadowingRequests : List Request :=
  [.declare "x" 0, .enter, .declare "x" 1, .declare "x" 2, .leave, .leave, .enter, .declare "y" 3]

theorem run_shadowingRequests_answers :
    unclosed shadowingRequests = [6] ∧ (run {} shadowingRequests).depth = 2 ∧
      DeclaredIn shadowingRequests (some 6) "y" 3 ∧
      run {} (shadowingRequests ++ [.declare "y" 4]) = run {} shadowingRequests ∧
      run {} (shadowingRequests ++ (.enter :: [.enter, .declare "y" 4, .leave] ++ [.leave])) =
        run {} shadowingRequests := by
  obtain ⟨hanswers, -, hrefused, hbalanced⟩ := run_answers shadowingRequests
  have hunclosed : unclosed shadowingRequests = [6] := by decide
  refine ⟨hunclosed, hanswers.depth.trans (by rw [hunclosed]; rfl), ?_,
    hrefused (.declare "y" 4) (.duplicate "y") rfl, hbalanced _ (by decide)⟩
  have hcurrent : current shadowingRequests = some 6 := by rw [current, hunclosed]; rfl
  rw [← hcurrent]
  exact (hanswers.lookupInnermost "y" 3).mp rfl

end StackMips.SymbolTable
