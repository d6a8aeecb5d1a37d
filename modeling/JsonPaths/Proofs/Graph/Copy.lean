/-
JsonPaths/Proofs/Graph/Copy.lean

The walk that checks a value graph and copies it.

The active containers of the walk are the ancestors of the node that is visited.  A visit
below given ancestors either stores a copy of what the graph spells out, marked with the
next free numbers in the order of its text, and leaves the rest of the walk as it was, or
it stops the walk at the first fault in pre-order (`Copies`).  The visits of the parts of
a container fill it one after the other (`run_parts`), so every visit does this
(`copies`), by induction on the number of nodes that are not active.  For the walk as a
whole this is `copy_cases`.
-/
import JsonPaths.Document.Basic
import JsonPaths.Proofs.Graph.Fill
import JsonPaths.Proofs.Graph.Preorder
import JsonPaths.Proofs.Related

namespace JsonPaths

namespace Graph

variable {g : Graph} {above : List Nat} {i n : Nat} {π : Problem} {ts : List Task} {T : Shared}

/-! ### Steps of a run -/

/-- The walk comes to an outcome after finitely many steps. -/
inductive Ends (g : Graph) : Walk → Except Problem Shared → Prop
  | done {w} : g.step w = none → Ends g w (.ok w.held)
  | stop {w π} : g.step w = some (.error π) → Ends g w (.error π)
  | step {w w' r} : g.step w = some (.ok w') → Ends g w' r → Ends g w r

theorem run_eq (w : Walk) : g.run w =
    match g.step w with
    | none => .ok w.held
    | some (.error π) => .error π
    | some (.ok w') => g.run w' := by
  rw [run]
  split <;> simp_all

/-- **Every walk ends**, and a run is what it comes to. -/
theorem ends_run (g : Graph) (w : Walk) : g.Ends w (g.run w) := by
  induction w using run.induct g with
  | case1 w h =>
    rw [run_eq, h]
    exact .done h
  | case2 w π h =>
    rw [run_eq, h]
    exact .stop h
  | case3 w w' h ih =>
    rw [run_eq, h]
    exact .step h ih

theorem run_nil : g.run ⟨[], above, T, n⟩ = .ok (Walk.held ⟨[], above, T, n⟩) := by
  rw [run_eq]
  rfl

theorem run_of_take {t : Task} {w' : Walk} (h : g.take ⟨ts, above, T, n⟩ t = .ok w') :
    g.run ⟨t :: ts, above, T, n⟩ = g.run w' := by
  have hstep : g.step ⟨t :: ts, above, T, n⟩ = some (.ok w') := congrArg some h
  rw [run_eq, hstep]

theorem run_of_take_error {t : Task} (h : g.take ⟨ts, above, T, n⟩ t = .error π) :
    g.run ⟨t :: ts, above, T, n⟩ = .error π := by
  have hstep : g.step ⟨t :: ts, above, T, n⟩ = some (.error π) := congrArg some h
  rw [run_eq, hstep]

/-- The leave of the nearest active container. -/
theorem run_leave : g.run ⟨.leave i :: ts, i :: above, T, n⟩ = g.run ⟨ts, above, T, n⟩ := by
  apply run_of_take
  simp [take, Walk.leave]

/-! ### Visits -/

/-- A visit of a node below the active nodes `above` stores a copy of what the graph
spells out there, with marks from the next one on, or stops the walk at the first fault.
What else is to be done does not matter. -/
def Copies (g : Graph) (above : List Nat) (i : Nat) : Prop :=
  ∀ slot ts T n, (∀ x ∈ T.marks, x < n) →
    (∃ v : Json, g.Spells i v ∧ g.Clear above i ∧
      g.run ⟨.visit i slot :: ts, above, T, n⟩
        = g.run ⟨ts, above, Value.write [slot] (v.withMarks n).1 T, (v.withMarks n).2⟩) ∨
    ∃ π, g.FirstFault above i π ∧ g.run ⟨.visit i slot :: ts, above, T, n⟩ = .error π

theorem lt_of_mem_marks_write {s : Slot Nat} {x : Shared} {n' : Nat} (hn : n ≤ n')
    (hT : ∀ m ∈ T.marks, m < n) (hx : ∀ m ∈ x.marks, m < n') :
    ∀ m ∈ (Value.write [s] x T).marks, m < n' := by
  intro m hm
  rcases Value.mem_marks_write hm with h | h
  · exact Nat.lt_of_lt_of_le (hT m h) hn
  · exact hx m h

variable (ts) in
/-- The visits of the parts of a container, one after the other, fill it with the copies,
or the walk stops at the first part with a fault. -/
theorem run_parts {parts : List (Step × Nat)} (hparts : ∀ p ∈ parts, g.Copies above p.2)
    {m : Nat} {s : Slot Nat} {c : Shared} (hm : m ∉ T.marks) (hT : ∀ x ∈ T.marks, x < n)
    (hc : ∀ x ∈ c.marks, x < n) :
    (∃ vs : List Json, List.Forall₂ (fun p v => g.Spells p.2 v) parts vs ∧
      (∀ p ∈ parts, g.Clear above p.2) ∧
      g.run ⟨parts.map (fun p => .visit p.2 ⟨m, p.1⟩) ++ ts, above, Value.write [s] c T, n⟩
        = g.run ⟨ts, above,
            Value.write [s] (Value.fill m c ((parts.map Prod.fst).zip (Value.markItems n vs).1)) T,
            (Value.markItems n vs).2⟩) ∨
    ∃ (k : Nat) (p : Step × Nat) (π : Problem), parts[k]? = some p ∧ g.FirstFault above p.2 π ∧
      (∀ (k' : Nat) p', k' < k → parts[k']? = some p' → g.Clear above p'.2) ∧
      g.run ⟨parts.map (fun p => .visit p.2 ⟨m, p.1⟩) ++ ts, above, Value.write [s] c T, n⟩
        = .error π := by
  induction parts generalizing c n with
  | nil => exact .inl ⟨[], .nil, nofun, rfl⟩
  | cons p parts ih =>
    obtain ⟨hp, hparts⟩ := List.forall_mem_cons.1 hparts
    have hcT := lt_of_mem_marks_write (s := s) (Nat.le_refl n) hT hc
    rcases hp ⟨m, p.1⟩ (parts.map (fun p => .visit p.2 ⟨m, p.1⟩) ++ ts) _ n hcT with
      ⟨v, hv, hclear, hrun⟩ | ⟨π, hπ, hrun⟩
    · -- the part is copied into the container, which might as well be stored afterwards
      rw [Value.write_write_new hm] at hrun
      have hn : n ≤ (v.withMarks n).2 := by
        rw [(Value.marks_withMarks v n).2]
        exact Nat.le_add_right ..
      have hvn : ∀ x ∈ (v.withMarks n).1.marks, x < (v.withMarks n).2 :=
        fun x hx => (Value.mem_marks_withMarks.1 hx).2
      rcases ih hparts (fun x hx => Nat.lt_of_lt_of_le (hT x hx) hn)
          (lt_of_mem_marks_write (s := ⟨m, p.1⟩) hn hc hvn) with
        ⟨vs, hvs, hclears, hrest⟩ | ⟨k, q, π, hq, hπ, hclears, hrest⟩
      · exact .inl ⟨v :: vs, .cons hv hvs, List.forall_mem_cons.2 ⟨hclear, hclears⟩,
          hrun.trans hrest⟩
      · refine .inr ⟨k + 1, q, π, hq, hπ, fun k' p' hk' hp' => ?_, hrun.trans hrest⟩
        cases k' with
        | zero => exact Option.some.inj hp' ▸ hclear
        | succ k' => exact hclears k' p' (by omega) hp'
    · exact .inr ⟨0, p, π, rfl, hπ, nofun, hrun⟩

theorem length_markItems (n : Nat) (vs : List Json) :
    (Value.markItems n vs).1.length = vs.length := by
  induction vs generalizing n with
  | nil => rfl
  | cons v vs ih => exact congrArg (· + 1) (ih _)

/-- The fresh marks of the items of an array are not its own. -/
theorem notMem_marks_markItems (n : Nat) (vs : List Json) :
    ∀ x ∈ (Value.markItems (n + 1) vs).1, n ∉ x.marks := by
  have h := Value.nodup_marks_withMarks (Value.array () vs) n
  rw [Value.withMarks, Value.marks_array, List.nodup_cons] at h
  exact fun x hx hn => h.1 (List.mem_flatMap.2 ⟨x, hx, hn⟩)

/-- The members of an object are marked as the items of an array are. -/
theorem markMembers_zip (n : Nat) {names : List String} {vs : List Json}
    (h : names.length = vs.length) :
    Value.markMembers n (names.zip vs)
      = (names.zip (Value.markItems n vs).1, (Value.markItems n vs).2) := by
  induction names generalizing n vs with
  | nil =>
    obtain rfl := List.length_eq_zero_iff.1 h.symm
    rfl
  | cons name names ih =>
    cases vs with
    | nil => cases h
    | cons v vs =>
      have hrest := ih (v.withMarks n).2 (Nat.succ.inj h)
      simp only [List.zip_cons_cons, Value.markMembers, Value.markItems, hrest]

/-- A visit of a container copies it if the visits of its parts copy them, and if the new
container that is filled with the copies is the value `v` of them. -/
theorem copies_container (parts : List (Step × Nat)) (c : Nat → Shared)
    (v : List Json → Json) (hf : ∀ π, ¬g.Faulty above i π)
    (hchildren : parts.map Prod.snd = g.children i)
    (hparts : ∀ j ∈ g.children i, g.Copies (i :: above) j)
    (htake : ∀ slot ts T n, g.take ⟨ts, above, T, n⟩ (.visit i slot)
      = .ok (Walk.enter ⟨ts, above, T, n⟩ i slot (c n) parts))
    (hc : ∀ n, (c n).marks = [n])
    (hv : ∀ vs, List.Forall₂ g.Spells (g.children i) vs → g.Spells i (v vs) ∧
      ∀ n, (v vs).withMarks n
        = (Value.fill n (c n) ((parts.map Prod.fst).zip (Value.markItems (n + 1) vs).1),
          (Value.markItems (n + 1) vs).2)) :
    g.Copies above i := by
  intro slot ts T n hT
  have hn : n ∉ T.marks := fun h => Nat.lt_irrefl n (hT n h)
  have hT' : ∀ x ∈ T.marks, x < n + 1 := fun x hx => Nat.lt_succ_of_lt (hT x hx)
  have hcn : ∀ x ∈ (c n).marks, x < n + 1 := by
    intro x hx
    rw [hc, List.mem_singleton] at hx
    omega
  have hparts' : ∀ p ∈ parts, g.Copies (i :: above) p.2 := by
    rw [← hchildren] at hparts
    exact List.forall_mem_map.1 hparts
  have hrun : g.run ⟨.visit i slot :: ts, above, T, n⟩ = _ := run_of_take (htake slot ts T n)
  rcases run_parts (.leave i :: ts) hparts' (s := slot) hn hT' hcn with
    ⟨vs, hvs, hclear, hrest⟩ | ⟨k, p, π, hp, hπ, hclear, hrest⟩
  · rw [← List.forall₂_map_left_iff, hchildren] at hvs
    obtain ⟨hspells, hmarks⟩ := hv vs hvs
    refine .inl ⟨v vs, hspells, clear_iff.2 ⟨hf, ?_⟩, ?_⟩
    · rw [← hchildren]
      exact List.forall_mem_map.2 hclear
    · rw [hmarks]
      exact hrun.trans (hrest.trans run_leave)
  · refine .inr ⟨π, firstFault_of_child hf (k := k) ?_ hπ fun k' j' hk' hj' => ?_,
      hrun.trans hrest⟩
    · rw [← hchildren, List.getElem?_map, hp]
      rfl
    · rw [← hchildren, List.getElem?_map] at hj'
      obtain ⟨p', hp', rfl⟩ := Option.map_eq_some_iff.1 hj'
      exact hclear k' p' hk' hp'

theorem copies_array {is : List Nat} (hn : g.node i = .array is) (hi : i ∉ above)
    (hf : ∀ π, ¬g.Faulty above i π) (h : ∀ j ∈ g.children i, g.Copies (i :: above) j) :
    g.Copies above i := by
  have hchildren : g.children i = is := by rw [children, hn]
  have hfst : (is.mapIdx fun k j => (Step.index k, j)).map Prod.fst
      = (List.range' 0 is.length).map Step.index :=
    List.ext_getElem (by simp) (by simp)
  refine copies_container (is.mapIdx fun k j => (.index k, j))
    (fun n => .array n (is.map fun _ => .null)) (fun vs => .array () vs) hf ?_ h
    (fun slot ts T n => ?_) (fun n => ?_) fun vs hvs => ⟨?_, fun n => ?_⟩
  · rw [hchildren]
    exact List.ext_getElem (by simp) (by simp)
  · rw [take, hn]
    exact if_neg hi
  · rw [Value.marks_array, List.flatMap_map]
    exact congrArg (n :: ·) (List.flatMap_eq_nil_iff.2 fun _ _ => rfl)
  · rw [hchildren] at hvs
    exact .array hn hvs.length_eq (List.forall₂_iff_getElem?.1 hvs).2
  · rw [hchildren] at hvs
    have hlen : is.length = (Value.markItems (n + 1) vs).1.length := by
      rw [length_markItems, hvs.length_eq]
    have hfill := Value.fill_array (m := n) (List.forall_mem_nil _) (notMem_marks_markItems n vs)
    rw [List.nil_append, List.nil_append, List.length_nil, List.map_const', ← hlen,
      ← List.map_const', ← hfst] at hfill
    exact Prod.ext hfill.symm rfl

theorem copies_object (hg : g.KeysDistinct) {ms : List (Key × Nat)}
    (hn : g.node i = .object ms) (hi : i ∉ above) (hf : ∀ π, ¬g.Faulty above i π)
    (h : ∀ j ∈ g.children i, g.Copies (i :: above) j) : g.Copies above i := by
  obtain ⟨ns, hns⟩ : ∃ ns, textMembers ms = .ok ns := by
    cases hm : textMembers ms with
    | ok ns => exact ⟨ns, rfl⟩
    | error π =>
      obtain ⟨pre, k, j, post, rfl, hpre, hk, -⟩ := textMembers_eq_error.1 hm
      exact absurd (.badKey hn hi hpre hk) (hf _)
  obtain rfl := textMembers_eq_ok.1 hns
  have hchildren : g.children i = ns.map Prod.snd := by
    rw [children, hn]
    simp [Function.comp_def]
  refine copies_container (ns.map fun p => (.field p.1, p.2))
    (fun n => .object n (ns.map fun p => (p.1, .null)))
    (fun vs => .object () ((ns.map Prod.fst).zip vs)) hf ?_ h
    (fun slot ts T n => ?_) (fun n => ?_) fun vs hvs => ?_
  · rw [hchildren]
    simp [Function.comp_def]
  · rw [take, hn]
    simp only [if_neg hi, hns, bind, Except.bind, pure, Except.pure]
  · rw [Value.marks_object, List.flatMap_map]
    exact congrArg (n :: ·) (List.flatMap_eq_nil_iff.2 fun _ _ => rfl)
  · rw [hchildren] at hvs
    have hlen : (ns.map Prod.fst).length = vs.length := by
      rw [List.length_map, ← hvs.length_eq, List.length_map]
    have hfst : ((ns.map Prod.fst).zip vs).map Prod.fst = ns.map Prod.fst :=
      List.map_fst_zip (Nat.le_of_eq hlen)
    have hspells : g.Spells i (Value.object () ((ns.map Prod.fst).zip vs)) := by
      refine .object hn ?_ fun k n p hk hp => ?_
      · have := congrArg (List.map Key.text) hfst
        simpa [Function.comp_def] using this.symm
      · rw [List.getElem?_map] at hk
        obtain ⟨m, hm, rfl⟩ := Option.map_eq_some_iff.1 hk
        have hp2 := (List.getElem?_zip_eq_some.1 hp).2
        exact (List.forall₂_iff_getElem?.1 hvs).2 k _ _ (by rw [List.getElem?_map, hm]; rfl) hp2
    refine ⟨hspells, fun n => ?_⟩
    have hkeys := (Value.distinct_object_iff.1 (hspells.distinct hg)).1
    rw [Value.withMarks, markMembers_zip _ hlen]
    have hfill := Value.fill_object_zip (m := n) (by rw [hlen, length_markItems])
      (by rwa [Assoc.keys, hfst] at hkeys) (notMem_marks_markItems n vs)
    rw [List.map_map, List.map_map] at hfill
    refine Prod.ext ?_ rfl
    rw [List.map_map]
    exact hfill.symm

theorem copies_leaf {v : Json} (hf : ∀ π, ¬g.Faulty above i π) (hv : g.Spells i v)
    (hm : v.mark? = none) : g.Copies above i := by
  intro slot ts T n _
  have htake : g.take ⟨ts, above, T, n⟩ (.visit i slot)
      = .ok ⟨ts, above, Value.write [slot] (v.withMarks n).1 T, (v.withMarks n).2⟩ := by
    rw [take]
    cases hv with
    | null hn | bool hn | int hn | double hn | string hn => rw [hn]; rfl
    | array | object => cases hm
  have hchildren : g.children i = [] := by
    rw [children]
    cases hv with
    | null hn | bool hn | int hn | double hn | string hn => rw [hn]
    | array | object => cases hm
  refine .inl ⟨v, hv, clear_iff.2 ⟨hf, ?_⟩, run_of_take htake⟩
  rw [hchildren]
  exact List.forall_mem_nil _

/-- **Every visit copies or finds the first fault**, by induction on the number of idle
nodes. -/
theorem copies (hg : g.KeysDistinct) (above : List Nat) (i : Nat) : g.Copies above i := by
  induction hk : idle above g.nodes.size using Nat.strongRecOn generalizing above i with
  | ind k ih =>
  by_cases hfault : ∃ π, g.Faulty above i π
  · obtain ⟨π, hπ⟩ := hfault
    intro slot ts T n _
    exact .inr ⟨π, firstFault_of_faulty hπ, run_of_take_error (take_visit_eq_error.2 hπ)⟩
  · simp only [not_exists] at hfault
    -- below a container that is entered there is one idle node less
    have hbelow : g.node i ≠ .null → i ∉ above → ∀ j ∈ g.children i, g.Copies (i :: above) j := by
      intro hne hi j _
      have hlt := idle_cons (lt_size_of_node_ne_null hne) hi
      exact ih _ (by omega) (i :: above) j rfl
    cases hn : g.node i with
    | null => exact copies_leaf hfault (.null hn) rfl
    | bool b => exact copies_leaf hfault (.bool hn) rfl
    | int n => exact copies_leaf hfault (.int hn) rfl
    | double x => exact copies_leaf hfault (.double hn) rfl
    | string s => exact copies_leaf hfault (.string hn) rfl
    | array is =>
      have hi : i ∉ above := fun h => hfault _ (.arrayCycle hn h)
      exact copies_array hn hi hfault (hbelow (by rw [hn]; exact nofun) hi)
    | object ms =>
      have hi : i ∉ above := fun h => hfault _ (.objectCycle hn h)
      exact copies_object hg hn hi hfault (hbelow (by rw [hn]; exact nofun) hi)
    | tuple | foreign =>
      exact absurd (.unsupported (by rw [hn]; rfl)) (hfault _)

/-! ### The whole walk -/

/-- The copy of a node, marked from the first number on that neither a node nor the holder
has, or the first fault. -/
theorem copy_cases (hg : g.KeysDistinct) (i : Nat) :
    (∃ v : Json, g.Spells i v ∧ g.Clear [] i ∧
        g.copy i = .ok (v.withMarks (g.nodes.size + 1)).1) ∨
      ∃ π, g.FirstFault [] i π ∧ g.copy i = .error π := by
  have hholder : ∀ x ∈ (Value.array g.nodes.size [Value.null]).marks, x < g.nodes.size + 1 := by
    intro x hx
    rw [Value.marks_array] at hx
    have : x = g.nodes.size := by simpa [Value.marks] using hx
    omega
  rcases copies hg [] i ⟨g.nodes.size, .index 0⟩ [] _ _ hholder with
    ⟨v, hv, hclear, hrun⟩ | ⟨π, hπ, hrun⟩
  · refine .inl ⟨v, hv, hclear, hrun.trans ?_⟩
    have hone : ∀ x ∈ [(Value.null : Shared)], g.nodes.size ∉ x.marks := by
      intro x hx
      rw [List.mem_singleton.1 hx]
      exact List.not_mem_nil
    rw [run_nil, Value.write_index_new hone]
    rfl
  · exact .inr ⟨π, hπ, hrun⟩

end Graph

end JsonPaths
