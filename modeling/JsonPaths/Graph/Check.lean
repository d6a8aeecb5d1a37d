/-
JsonPaths/Graph/Check.lean

Checking and copying a value graph.

`copy` copies what a node stands for, container by container, and stops at the first
thing that is not JSON.  The work to do is a stack: to visit a node and store its copy
in a slot, or to leave a container whose parts have all been visited.  The containers
that have been entered and not left are active, and one that is visited while it is
active contains itself.  An object is entered only if all its keys are texts.  New
containers have numbers that no node has; the copy is stored in the slot of a holder, an
array with one item.

A walk ends (`remaining_lt`): on the way down from a node every container that is entered
makes one number less idle.
-/
import JsonPaths.Graph.Basic
import JsonPaths.Path.Assign

namespace JsonPaths

namespace Graph

/-! ### Problems -/

/-- What makes a graph something else than a JSON value.  A key that is no text and
cannot be shown is a problem of its own, since what is said of a bad key shows it. -/
inductive Problem where
  | unsupported (kind : String)
  | badKey (shown : String)
  | unshownKey
  | cycle
  deriving DecidableEq, Repr

/-- The problem of a key that is no text. -/
def Problem.ofKey (k : Key) : Problem :=
  match k.shown with
  | some s => .badKey (String.ofList s)
  | none => .unshownKey

/-- The text of a key. -/
def keyText : Key → Except Problem String
  | .text s => .ok s
  | k => .error (.ofKey k)

/-- The members of an object by the texts of their keys, if all keys are texts. -/
def textMembers : List (Key × Nat) → Except Problem (List (String × Nat))
  | [] => .ok []
  | (k, i) :: ms => do
    let name ← keyText k
    let ms ← textMembers ms
    return (name, i) :: ms

theorem textMembers_eq_ok {ms : List (Key × Nat)} {ns : List (String × Nat)} :
    textMembers ms = .ok ns ↔ ms = ns.map fun p => (.text p.1, p.2) := by
  induction ms generalizing ns with
  | nil => cases ns <;> simp [textMembers]
  | cons m ms ih =>
    obtain ⟨k, i⟩ := m
    cases k with
    | text s =>
      cases ns with
      | nil =>
        cases h : textMembers ms <;>
          simp [textMembers, keyText, h, bind, Except.bind, pure, Except.pure]
      | cons n ns =>
        rw [List.map_cons, List.cons.injEq, ← ih]
        cases h : textMembers ms <;>
          simp [textMembers, keyText, h, bind, Except.bind, pure, Except.pure, Prod.ext_iff,
            and_assoc]
    | _ => cases ns <;> simp [textMembers, keyText, bind, Except.bind]

/-! ### The walk -/

/-- A piece of work: to store the copy of a node in a slot, or to leave a container. -/
inductive Task where
  | visit (node : Nat) (slot : Slot Nat)
  | leave (node : Nat)

/-- The state of a walk: the work to do, the active containers, the holder with what
has been copied, and the number of the next new container. -/
structure Walk where
  stack : List Task
  active : List Nat
  holder : Shared
  next : Nat

namespace Walk

/-- What the holder holds. -/
def held (w : Walk) : Shared :=
  match w.holder with
  | .array _ [v] => v
  | v => v

/-- The walk that copies a node. -/
def start (g : Graph) (i : Nat) : Walk :=
  let h := g.nodes.size
  ⟨[.visit i ⟨h, .index 0⟩], [], .array h [.null], h + 1⟩

/-- Stores a scalar in a slot. -/
def store (w : Walk) (slot : Slot Nat) (v : Shared) : Walk :=
  { w with holder := Value.write [slot] v w.holder }

/-- Enters the container with number `i`: stores a new container in a slot, and pushes
the visits of the parts, each with the step to its place, and the leave after them. -/
def enter (w : Walk) (i : Nat) (slot : Slot Nat) (new : Shared) (parts : List (Step × Nat)) :
    Walk where
  stack := parts.map (fun p => .visit p.2 ⟨w.next, p.1⟩) ++ .leave i :: w.stack
  active := i :: w.active
  holder := Value.write [slot] new w.holder
  next := w.next + 1

/-- Leaves the container with number `i`. -/
def leave (w : Walk) (i : Nat) : Walk := { w with active := w.active.erase i }

end Walk

/-- Takes up a task that has been taken from the stack. -/
def take (g : Graph) (w : Walk) : Task → Except Problem Walk
  | .leave i => .ok (w.leave i)
  | .visit i slot =>
    match g.node i with
    | .null => .ok (w.store slot .null)
    | .bool b => .ok (w.store slot (.bool b))
    | .int n => .ok (w.store slot (.int n))
    | .double x => .ok (w.store slot (.double x))
    | .string s => .ok (w.store slot (.string s))
    | .array items =>
      if i ∈ w.active then .error .cycle
      else .ok (w.enter i slot (.array w.next (items.map fun _ => .null))
        (items.mapIdx fun k j => (.index k, j)))
    | .object members =>
      if i ∈ w.active then .error .cycle
      else do
        let ms ← textMembers members
        return w.enter i slot (.object w.next (ms.map fun m => (m.1, .null)))
          (ms.map fun m => (.field m.1, m.2))
    | .tuple _ => .error (.unsupported "tuple")
    | .foreign kind _ _ => .error (.unsupported kind)

/-- Takes up the first task of a walk, if there is one. -/
def step (g : Graph) (w : Walk) : Option (Except Problem Walk) :=
  match w.stack with
  | [] => none
  | t :: ts => some (g.take { w with stack := ts } t)

/-! ### Why a walk ends -/

/-- The nodes below a container. -/
def children (g : Graph) (i : Nat) : List Nat :=
  match g.node i with
  | .array items => items
  | .object members => members.map Prod.snd
  | _ => []

/-- How many of the numbers below `n` are not active. -/
def idle (active : List Nat) : Nat → Nat
  | 0 => 0
  | n + 1 => idle active n + if n ∈ active then 0 else 1

/-- The sum of `f` over nodes. -/
def total (f : Nat → Nat) : List Nat → Nat
  | [] => 0
  | i :: is => f i + total f is

/-- A bound on the tasks that a visit leads to, itself included, if `n` numbers are
idle. -/
def effort (g : Graph) : Nat → Nat → Nat
  | 0, _ => 1
  | n + 1, i => 2 + total (effort g n) (g.children i)

/-- A bound on the tasks that a stack leads to if `n` numbers are idle: a leave makes
one more idle. -/
def efforts (g : Graph) : Nat → List Task → Nat
  | _, [] => 0
  | n, .visit i _ :: ts => g.effort n i + g.efforts n ts
  | n, .leave _ :: ts => 1 + g.efforts (n + 1) ts

/-- A bound on the steps of a walk. -/
def remaining (g : Graph) (w : Walk) : Nat := g.efforts (idle w.active g.nodes.size) w.stack

theorem idle_congr {a b : List Nat} {n : Nat} (h : ∀ j < n, j ∈ a ↔ j ∈ b) :
    idle a n = idle b n := by
  induction n with
  | zero => rfl
  | succ n ih =>
    have hn := h n (by omega)
    simp only [idle, hn, ih fun j hj => h j (by omega)]

/-- A number that is entered is not idle any more. -/
theorem idle_cons {active : List Nat} {i n : Nat} (hi : i < n) (ha : i ∉ active) :
    idle (i :: active) n + 1 = idle active n := by
  induction n with
  | zero => omega
  | succ n ih =>
    by_cases e : i = n
    · subst e
      have hc : idle (i :: active) i = idle active i :=
        idle_congr fun j hj => by simp [Nat.ne_of_lt hj]
      simp [idle, hc, ha]
    · have hn : n ∈ i :: active ↔ n ∈ active := by simp [Ne.symm e]
      have := ih (by omega)
      simp only [idle, hn]
      omega

theorem idle_erase_le (active : List Nat) (i n : Nat) :
    idle (active.erase i) n ≤ idle active n + 1 := by
  induction n with
  | zero => simp [idle]
  | succ n ih =>
    by_cases e : i = n
    · subst e
      have hc : idle (active.erase i) i = idle active i :=
        idle_congr fun j hj => List.mem_erase_of_ne (Nat.ne_of_lt hj)
      simp only [idle, hc]
      split <;> omega
    · have hn : n ∈ active.erase i ↔ n ∈ active := List.mem_erase_of_ne (Ne.symm e)
      simp only [idle, hn]
      omega

theorem one_le_effort (g : Graph) (n i : Nat) : 1 ≤ g.effort n i := by
  cases n with
  | zero => exact Nat.le_refl _
  | succ n => exact Nat.le_trans (by decide) (Nat.le_add_right 2 _)

theorem effort_le_succ (g : Graph) (n i : Nat) : g.effort n i ≤ g.effort (n + 1) i := by
  induction n generalizing i with
  | zero => exact g.one_le_effort 1 i
  | succ n ih =>
    have htotal : ∀ is, total (g.effort n) is ≤ total (g.effort (n + 1)) is := by
      intro is
      induction is with
      | nil => exact Nat.le_refl _
      | cons j js ihs => exact Nat.add_le_add (ih j) ihs
    exact Nat.add_le_add_left (htotal _) 2

theorem efforts_le_succ (g : Graph) (n : Nat) (ts : List Task) :
    g.efforts n ts ≤ g.efforts (n + 1) ts := by
  induction ts generalizing n with
  | nil => exact Nat.le_refl _
  | cons t ts ih =>
    cases t with
    | visit i slot => exact Nat.add_le_add (g.effort_le_succ n i) (ih n)
    | leave i => exact Nat.add_le_add_left (ih (n + 1)) 1

theorem efforts_mono (g : Graph) {n k : Nat} (h : n ≤ k) (ts : List Task) :
    g.efforts n ts ≤ g.efforts k ts := by
  induction h with
  | refl => exact Nat.le_refl _
  | step _ ih => exact Nat.le_trans ih (g.efforts_le_succ _ ts)

theorem efforts_append (g : Graph) (n : Nat) (parts : List (Step × Nat)) (m : Nat)
    (ts : List Task) :
    g.efforts n (parts.map (fun p => .visit p.2 ⟨m, p.1⟩) ++ ts)
      = total (g.effort n) (parts.map Prod.snd) + g.efforts n ts := by
  induction parts with
  | nil => exact (Nat.zero_add _).symm
  | cons p ps ih => simp only [List.map_cons, List.cons_append, efforts, ih, total, Nat.add_assoc]

/-- A number that is not in use has no container. -/
theorem lt_size_of_node_ne_null {g : Graph} {i : Nat} (h : g.node i ≠ .null) :
    i < g.nodes.size := by
  refine Nat.lt_of_not_le fun hle => h ?_
  simp [node, Array.getElem?_eq_none hle]

/-- What a task comes to: a container is left, a scalar is stored, or a container that
is not active is entered. -/
theorem take_eq_ok {g : Graph} {w w' : Walk} {t : Task} (h : g.take w t = .ok w') :
    (∃ i, t = .leave i ∧ w' = w.leave i) ∨
    (∃ i slot v, t = .visit i slot ∧ w' = w.store slot v) ∨
    ∃ i slot new parts, t = .visit i slot ∧ i < g.nodes.size ∧ i ∉ w.active ∧
      parts.map Prod.snd = g.children i ∧ w' = w.enter i slot new parts := by
  cases t with
  | leave i => exact .inl ⟨i, rfl, (Except.ok.inj h).symm⟩
  | visit i slot =>
    refine .inr ?_
    rw [take] at h
    split at h
    case h_6 items hn =>
      split at h
      · cases h
      · next ha =>
        refine .inr ⟨i, slot, _, _, rfl, lt_size_of_node_ne_null (by simp [hn]), ha, ?_,
          (Except.ok.inj h).symm⟩
        rw [children, hn]
        exact List.ext_getElem (by simp) (by simp)
    case h_7 members hn =>
      split at h
      · cases h
      · next ha =>
        cases hm : textMembers members with
        | error π => simp [hm, bind, Except.bind] at h
        | ok ms =>
          simp only [hm, bind, Except.bind, pure, Except.pure, Except.ok.injEq] at h
          refine .inr ⟨i, slot, _, _, rfl, lt_size_of_node_ne_null (by simp [hn]), ha, ?_, h.symm⟩
          simp [children, hn, textMembers_eq_ok.1 hm, Function.comp_def]
    all_goals first | cases h; done | exact .inl ⟨i, slot, _, rfl, (Except.ok.inj h).symm⟩

theorem step_eq_some {g : Graph} {w : Walk} {r : Except Problem Walk} :
    g.step w = some r ↔ ∃ t ts, w.stack = t :: ts ∧ g.take { w with stack := ts } t = r := by
  unfold step
  split
  · next h => simp [h]
  · next t ts h =>
    constructor
    · exact fun e => ⟨t, ts, h, Option.some.inj e⟩
    · rintro ⟨t', ts', h', rfl⟩
      obtain ⟨rfl, rfl⟩ := List.cons.inj (h.symm.trans h')
      rfl

/-- **Every step of a walk leaves less to do.** -/
theorem remaining_lt {g : Graph} {w w' : Walk} (h : g.step w = some (.ok w')) :
    g.remaining w' < g.remaining w := by
  obtain ⟨t, ts, hs, h⟩ := step_eq_some.1 h
  rcases take_eq_ok h with ⟨i, rfl, rfl⟩ | ⟨i, slot, v, rfl, rfl⟩ |
    ⟨i, slot, new, parts, rfl, hi, ha, hp, rfl⟩
  · have := g.efforts_mono (idle_erase_le w.active i g.nodes.size) ts
    simp only [remaining, hs, efforts, Walk.leave]
    omega
  · have := g.one_le_effort (idle w.active g.nodes.size) i
    simp only [remaining, hs, efforts, Walk.store]
    omega
  · have hidle := idle_cons hi ha
    simp only [remaining, hs, efforts, Walk.enter, efforts_append, hp, ← hidle, effort]
    omega

/-- What a walk comes to: what the holder holds in the end, or the first problem. -/
def run (g : Graph) (w : Walk) : Except Problem Shared :=
  match _h : g.step w with
  | none => .ok w.held
  | some (.error π) => .error π
  | some (.ok w') => g.run w'
termination_by g.remaining w
decreasing_by exact remaining_lt _h

/-! ### Copying -/

/-- The copy of what a node stands for, or the first problem. -/
def copy (g : Graph) (i : Nat) : Except Problem Shared := g.run (.start g i)

/-- The JSON value that a graph spells out at a node, or the first problem. -/
def check (g : Graph) (i : Nat) : Except Problem Json := (g.copy i).map Value.erase

end Graph

/-- The JSON value of a candidate, or what is wrong with it. -/
def Candidate.check : Candidate → Except Graph.Problem Json
  | .json v => .ok v
  | .graph g root => g.check root

end JsonPaths
