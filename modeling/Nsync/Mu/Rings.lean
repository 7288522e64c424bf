import Nsync.Dll
import Nsync.Lib.Run
import Nsync.Mu.Conditions

/-!
# The rings of the mutex queue

The updates that the library makes to the queue of a mutex, at the level of the
links in the `waiter` structs: the list links `nw.q` and the `same_condition`
links.  Starting from an empty queue, any sequence of them keeps the two in
step.
-/

namespace Nsync.Mu

open Nsync.Lib

variable {T σ : Type} [DecidableEq T]

/-- The lists that hold queued waiters: `mu->waiters`, and the variables `waiters`
and `new_waiters` of `nsync_mu_unlock_slow_`. -/
inductive Which where
  | mu
  | waiters
  | newWaiters
  deriving DecidableEq, Repr

/-- The waiter structs with their links `nw.q` and `same_condition`, and the lists. -/
structure Queues (T : Type) where
  wtr : T → Waiter
  q : Links T
  same : Links T
  list : Which → Option T

namespace Queues

def setList (s : Queues T) (i : Which) (p : Links T × Option T) : Queues T :=
  { s with q := p.1, list := Function.update s.list i p.2 }

def setCond (s : Queues T) (t : T) (c : Option WaitCondition) : Queues T :=
  { s with wtr := Function.update s.wtr t { s.wtr t with cond := c } }

/-- `nsync_maybe_merge_conditions_` -/
def mergeConditions (E : Env σ) (s : Queues T) (p n : Option T) : Queues T :=
  { s with same := maybeMergeConditions E s.wtr s.same p n }

/-- `nsync_remove_from_mu_queue_` -/
def removeFromMuQueue (E : Env σ) (s : Queues T) (i : Which) (e : T) : Queues T :=
  let prev := s.q.prev e
  let next := s.q.next e
  let s := s.setList i (Dll.remove s.q (s.list i) e)
  let s := { s with
    wtr := Function.update s.wtr e { s.wtr e with removeCount := (s.wtr e).removeCount + 1 } }
  if Dll.isEmpty (s.list i) then s
  else if s.same.next e ≠ e then
    -- `e` is linked to a `same_condition` neighbour
    { s with same := s.same.unlink e }
  else if some prev ≠ Dll.last (s.list i) then s.mergeConditions E (some prev) (some next)
  else s

/-- How `nsync_mu_wait_with_deadline` queues the waiter `t`. -/
def enqueueWait (E : Env σ) (s : Queues T) (firstWait : Bool) (t : T)
    (condition : Option WaitCondition) : Queues T :=
  let s := s.setCond t condition
  if firstWait then
    let s := s.mergeConditions E (Dll.last (s.list .mu)) (some t)
    s.setList .mu (Dll.makeLastInList s.q (s.list .mu) (some t))
  else
    let s := s.mergeConditions E (some t) (Dll.first s.q (s.list .mu))
    s.setList .mu (Dll.makeFirstInList s.q (s.list .mu) (some t))

/-- How `nsync_mu_lock_slow_` queues the waiter `t`; `wake_waiters` transfers a
waiter of a condition variable as for a first wait. -/
def enqueueLock (s : Queues T) (firstWait : Bool) (t : T) : Queues T :=
  let s := s.setCond t none
  if firstWait then s.setList .mu (Dll.makeLastInList s.q (s.list .mu) (some t))
  else s.setList .mu (Dll.makeFirstInList s.q (s.list .mu) (some t))

/-- `nsync_mu_unlock_slow_` takes the queue. -/
def takeWaiters (s : Queues T) : Queues T :=
  { s with list := Function.update (Function.update s.list .newWaiters (s.list .mu)) .mu none }

/-- `nsync_mu_unlock_slow_` adds `new_waiters` to the end of `waiters`. -/
def concatWaiters (E : Env σ) (s : Queues T) : Queues T :=
  let s := s.mergeConditions E (Dll.last (s.list .waiters)) (Dll.first s.q (s.list .newWaiters))
  let s := s.setList .waiters
    (Dll.makeLastInList s.q (s.list .waiters) (Dll.last (s.list .newWaiters)))
  { s with list := Function.update s.list .newWaiters none }

/-- `nsync_mu_unlock_slow_` puts `waiters` back. -/
def returnWaiters (s : Queues T) : Queues T :=
  { s with list := Function.update (Function.update s.list .mu (s.list .waiters)) .waiters none }

/-- No list holds the waiter, and it is linked to no other. -/
def Idle (s : Queues T) (t : T) : Prop := s.q.Alone t ∧ ∀ i, s.list i ≠ some t

def Holds (s : Queues T) (i : Which) (e : T) : Prop := ∃ l, Denotes s.q (s.list i) l ∧ e ∈ l

end Queues

/-- The updates of the queue.  Waiters that no list holds may be moved about in
other lists. -/
inductive Update (T : Type) where
  | wait (firstWait : Bool) (t : T) (condition : Option WaitCondition)
  | lock (firstWait : Bool) (t : T)
  | remove (i : Which) (e : T)
  | take
  | concatAndTake
  | putBack
  | elsewhere (q : Links T)

namespace Update

def apply (E : Env σ) : Update T → Queues T → Queues T
  | wait firstWait t condition, s => s.enqueueWait E firstWait t condition
  | lock firstWait t, s => s.enqueueLock firstWait t
  | remove i e, s => s.removeFromMuQueue E i e
  | take, s => s.takeWaiters
  | concatAndTake, s => (s.concatWaiters E).takeWaiters
  | putBack, s => s.returnWaiters
  | elsewhere q, s => { s with q := q }

/-- When the library makes the update. -/
def Allowed : Update T → Queues T → Prop
  | wait _ t _, s => s.Idle t
  | lock _ t, s => s.Idle t
  | remove i e, s => s.Holds i e
  | take, s => s.list .waiters = none ∧ s.list .newWaiters = none
  | concatAndTake, _ => True
  | putBack, s => s.list .mu = none ∧ s.list .newWaiters = none
  | elsewhere q, s => ∀ i x, s.Holds i x → q.next x = s.q.next x ∧ q.prev x = s.q.prev x

end Update

namespace Queues

/-! ## Lists of maximal rings -/

/-- `WAIT_CONDITION_EQ` of the conditions of two waiters. -/
def CondEq (E : Env σ) (wtr : T → Waiter) (x y : T) : Prop :=
  waitConditionEq E (wtr x).cond (wtr y).cond = true

section

variable {T : Type} {E : Env σ} {wtr wtr' : T → Waiter} {x y z : T}

theorem CondEq.symm (hE : Equivalence fun c d => waitConditionEq E (some c) (some d) = true)
    (h : CondEq E wtr x y) : CondEq E wtr y x := by
  cases hx : (wtr x).cond <;> cases hy : (wtr y).cond <;> simp only [CondEq, hx, hy] at h ⊢
  · exact h
  · simp [waitConditionEq] at h
  · simp [waitConditionEq] at h
  · exact hE.symm h

theorem CondEq.trans (hE : Equivalence fun c d => waitConditionEq E (some c) (some d) = true)
    (h : CondEq E wtr x y) (h' : CondEq E wtr y z) : CondEq E wtr x z := by
  cases hx : (wtr x).cond <;> cases hy : (wtr y).cond <;> cases hz : (wtr z).cond <;>
    simp only [CondEq, hx, hy, hz] at h h' ⊢
  all_goals first | exact hE.trans h h' | simp_all [waitConditionEq]

theorem CondEq.isSome (h : CondEq E wtr x y) : (wtr x).cond ≠ none ∧ (wtr y).cond ≠ none := by
  cases hx : (wtr x).cond <;> cases hy : (wtr y).cond <;>
    simp [CondEq, hx, hy, waitConditionEq] at h ⊢

theorem condEq_congr (hx : (wtr' x).cond = (wtr x).cond) (hy : (wtr' y).cond = (wtr y).cond) :
    CondEq E wtr' x y ↔ CondEq E wtr x y := by
  rw [CondEq, CondEq, hx, hy]

end

section

variable {E : Env σ} {wtr : T → Waiter} {h : Links T} {l k : List T} {e : T}
  (hE : Equivalence fun c d => waitConditionEq E (some c) (some d) = true)

theorem joined_merge (hl : Joined h (CondEq E wtr) l) (hk : Joined h (CondEq E wtr) k)
    (hsk : Segmented h (CondEq E wtr) k) (hnd : (l ++ k).Nodup) :
    Joined (maybeMergeConditions E wtr h l.getLast? k.head?) (CondEq E wtr) (l ++ k) := by
  cases hp : l.getLast? with
  | none =>
      obtain rfl := List.getLast?_eq_none_iff.mp hp
      exact hk
  | some p =>
      cases hn : k.head? with
      | none =>
          obtain rfl := List.head?_eq_none_iff.mp hn
          simpa [maybeMergeConditions] using hl
      | some n =>
          rw [maybeMergeConditions]
          split
          · exact hl.splice hk hsk hnd hp hn
          · next hpn =>
              refine hl.append hk fun x hx y hy => ?_
              obtain rfl : p = x := Option.some.inj (hp.symm.trans hx)
              obtain rfl : n = y := Option.some.inj (hn.symm.trans hy)
              exact hpn

include hE in
theorem joined_remove (hj : Joined h (CondEq E wtr) l) (hs : Segmented h (CondEq E wtr) l)
    (hnd : l.Nodup) (he : e ∈ l) :
    Joined (removeSameCondition E wtr h l e) (CondEq E wtr) (l.erase e) := by
  have herase : ∀ l₁ l₂, (l₁ ++ e :: l₂).Nodup → (l₁ ++ e :: l₂).erase e = l₁ ++ l₂ := by
    intro l₁ l₂ hnd
    have he₁ : e ∉ l₁ := fun hm => (List.nodup_append.mp hnd).2.2 e hm e (by simp) rfl
    rw [List.erase_append_right _ he₁, List.erase_cons_head]
  by_cases hne : h.next e = e
  · obtain ⟨l₁, l₂, rfl, -, hs₂⟩ := hs.split_alone hnd he hne
    obtain ⟨hj₁, hj₂⟩ := hj.cut
    have hnd' : (l₁ ++ l₂).Nodup := herase l₁ l₂ hnd ▸ hnd.erase e
    rw [removeSameCondition_alone hnd hne, herase l₁ l₂ hnd]
    exact joined_merge hj₁ hj₂ hs₂ hnd'
  · obtain ⟨l₁, l₂, rfl⟩ := List.append_of_mem he
    have hmem : h.next e ∈ l₁ ++ e :: l₂ := by
      obtain ⟨k₁, r, k₂, hk, her, hr, -⟩ := hs.exists_segment he
      rw [hk]
      simp [hr.next_mem her]
    rw [removeSameCondition_linked hmem hne, herase l₁ l₂ hnd]
    exact hj.unlink (fun _ _ => CondEq.symm hE) (fun _ _ _ => CondEq.trans hE) hs hnd hne

end

/-- A list of the queue: the waiters in `l`, cut into rings that could not be longer. -/
structure Ringed (E : Env σ) (s : Queues T) (list : Option T) (l : List T) : Prop where
  denotes : Denotes s.q list l
  rings : Segmented s.same (CondEq E s.wtr) l
  joined : Joined s.same (CondEq E s.wtr) l

/-- The lists hold the given waiters, and any other waiter is in a ring of its own. -/
structure Inv (E : Env σ) (s : Queues T) (seq : Which → List T) : Prop where
  ringed : ∀ i, Ringed E s (s.list i) (seq i)
  apart : ∀ i j, i ≠ j → ∀ x ∈ seq i, x ∉ seq j
  alone : ∀ x, (∀ i, x ∉ seq i) → s.same.Alone x

section

variable {E : Env σ} {s s' : Queues T} {list : Option T} {l k : List T} {seq seq' : Which → List T}
  {e t : T} {i j : Which}

omit [DecidableEq T] in
/-- What the links and conditions outside `k` say of a list outside `k`. -/
theorem Ringed.frame (hr : Ringed E s list l) (hd : ∀ x ∈ l, x ∉ k)
    (hq : Dll.Untouched s.q s'.q k) (hs : Outside s.same s'.same k)
    (hc : ∀ x, x ∉ k → (s'.wtr x).cond = (s.wtr x).cond) : Ringed E s' list l where
  denotes := hr.denotes.congr (fun x hx => (hq x (hd x hx)).1) fun x hx => (hq x (hd x hx)).2
  rings := Segmented.of_outside hr.rings hs hd fun x hx y hy hxy =>
    (condEq_congr (hc x (hd x hx)) (hc y (hd y hy))).mpr hxy
  joined := hr.joined.congr (fun x hx => (hs x (hd x hx)).1) fun x hx y hy hxy =>
    (condEq_congr (hc x (hd x hx)) (hc y (hd y hy))).mp hxy

/-! ## Each update -/

theorem linkNext_eq {h : Links T} {l₁ l₂ : List T} (hr : h.Ring (l₁ ++ e :: l₂)) (he : e ∉ l₁) :
    linkNext (l₁ ++ e :: l₂) e = some (h.next e) := by
  rw [linkNext, dllNext_append he, hr.neighbours.1]
  cases l₂ <;> cases l₁ <;> simp

theorem linkPrev_eq {h : Links T} {l₁ l₂ : List T} (hr : h.Ring (l₁ ++ e :: l₂)) (he₁ : e ∉ l₁)
    (he₂ : e ∉ l₂) : linkPrev (l₁ ++ e :: l₂) e = some (h.prev e) := by
  rw [hr.neighbours.2]
  rcases eq_or_ne l₁ [] with rfl | hne
  · rw [List.nil_append, linkPrev_head he₂, List.append_nil]
  · rw [linkPrev_append he₁ hne, List.getLast?_append_of_ne_nil _ hne]

theorem maybeMergeConditions_congr {wtr wtr' : T → Waiter} {h : Links T} {p n : Option T}
    (hc : ∀ x, (wtr' x).cond = (wtr x).cond) :
    maybeMergeConditions E wtr' h p n = maybeMergeConditions E wtr h p n := by
  cases p <;> cases n <;> simp only [maybeMergeConditions, hc]

/-- The removal reads from the links what it would read from the sequence. -/
theorem removeFromMuQueue_eq (hd : Denotes s.q (s.list i) l) (he : e ∈ l) :
    s.removeFromMuQueue E i e =
      { wtr := Function.update s.wtr e
          { s.wtr e with removeCount := (s.wtr e).removeCount + 1 }
        q := (Dll.remove s.q (s.list i) e).1
        same := removeSameCondition E s.wtr s.same l e
        list := Function.update s.list i (Dll.remove s.q (s.list i) e).2 } := by
  have hd' : Denotes (Dll.remove s.q (s.list i) e).1 (Dll.remove s.q (s.list i) e).2 (l.erase e) :=
    hd.removeFrom he
  have hlast : (Dll.remove s.q (s.list i) e).2 = (l.erase e).getLast? := hd'.last
  have hempty : Dll.isEmpty (l.erase e).getLast? = true ↔ l.erase e = [] := by
    rw [← hlast, Dll.isEmpty, Option.isNone_iff_eq_none, hd'.eq_none]
  have hcond : ∀ x, ((Function.update s.wtr e
      { s.wtr e with removeCount := (s.wtr e).removeCount + 1 }) x).cond = (s.wtr x).cond := by
    intro x
    rcases eq_or_ne x e with rfl | hx
    · rw [Function.update_self]
    · rw [Function.update_of_ne hx]
  obtain ⟨l₁, l₂, rfl⟩ := List.append_of_mem he
  have he₁ : e ∉ l₁ := fun hm => (List.nodup_append.mp hd.nodup).2.2 e hm e (by simp) rfl
  have he₂ : e ∉ l₂ := (List.nodup_cons.mp (List.nodup_append.mp hd.nodup).2.1).1
  have hr := hd.ring (by simp)
  simp only [removeFromMuQueue, setList, Function.update_self, hempty, Dll.last, mergeConditions,
    removeSameCondition, linkNext_eq hr he₁, linkPrev_eq hr he₁ he₂, hlast,
    maybeMergeConditions_congr hcond]
  split_ifs <;> rfl

omit [DecidableEq T] in
/-- An update that changes the links and conditions of the waiters in `k` only. -/
theorem Inv.update (h : Inv E s seq) (hq : Dll.Untouched s.q s'.q k)
    (hs : Outside s.same s'.same k) (hc : ∀ x, x ∉ k → (s'.wtr x).cond = (s.wtr x).cond)
    (hlist : ∀ i, Ringed E s' (s'.list i) (seq' i) ∨
      s'.list i = s.list i ∧ seq' i = seq i ∧ ∀ x ∈ seq i, x ∉ k)
    (hapart : ∀ i j, i ≠ j → ∀ x ∈ seq' i, x ∉ seq' j)
    (hout : ∀ x, (∀ i, x ∉ seq' i) → s'.same.Alone x ∨ x ∉ k ∧ ∀ i, x ∉ seq i) :
    Inv E s' seq' where
  ringed i := by
    rcases hlist i with hr | ⟨hl, hseq, hd⟩
    · exact hr
    · rw [hl, hseq]
      exact (h.ringed i).frame hd hq hs hc
  apart := hapart
  alone x hx := by
    rcases hout x hx with ha | ⟨hk, hseq⟩
    · exact ha
    · obtain ⟨hn, hp⟩ := h.alone x hseq
      exact ⟨(hs x hk).1.trans hn, (hs x hk).2.trans hp⟩

/-- Two lists become one. -/
theorem Inv.join {p p' : Option T} (h : Inv E s seq) (hl : Ringed E s p l) (hk : Ringed E s p' k)
    (hnd : (l ++ k).Nodup) (hq : Dll.Untouched s.q s'.q (l ++ k))
    (hden : Denotes s'.q (s'.list i) (l ++ k)) (hwtr : s'.wtr = s.wtr)
    (hsame : s'.same = maybeMergeConditions E s.wtr s.same l.getLast? k.head?)
    (hseq : seq' i = l ++ k)
    (hother : ∀ j, j ≠ i → s'.list j = none ∧ seq' j = [] ∨
      s'.list j = s.list j ∧ seq' j = seq j ∧ ∀ x ∈ seq j, x ∉ l ++ k)
    (hcover : ∀ j, seq' j = seq j ∨ ∀ x ∈ seq j, x ∈ l ++ k)
    (hE : Equivalence fun c d => waitConditionEq E (some c) (some d) = true) : Inv E s' seq' := by
  obtain ⟨hrings, hout⟩ := rings_merge (fun _ _ _ => CondEq.trans hE) (fun _ _ hxy => hxy)
    hl.rings hk.rings hnd
  have hring : Ringed E s' (s'.list i) (seq' i) := by
    rw [hseq]
    refine ⟨hden, ?_, ?_⟩
    · rw [hsame, hwtr]
      exact hrings
    · rw [hsame, hwtr]
      exact joined_merge hl.joined hk.joined hk.rings hnd
  refine h.update hq (hsame ▸ hout) (fun x _ => by rw [hwtr]) (fun j => ?_)
    (fun j j' hj x hx hx' => ?_) fun x hx => ?_
  · rcases eq_or_ne j i with rfl | hji
    · exact Or.inl hring
    · rcases hother j hji with ⟨hl', hs'⟩ | hkeep
      · rw [hl', hs']
        exact Or.inl ⟨.empty _, .nil, .nil⟩
      · exact Or.inr hkeep
  · -- a list that is kept has nothing of the new one
    have hnew : ∀ j, j ≠ i → x ∈ seq' j → x ∈ seq j ∧ x ∉ l ++ k := by
      intro j hji hxj
      rcases hother j hji with ⟨-, hs'⟩ | ⟨-, hs', hd⟩
      · rw [hs'] at hxj
        cases hxj
      · rw [hs'] at hxj
        exact ⟨hxj, hd x hxj⟩
    rcases eq_or_ne j i with rfl | hji
    · exact (hnew j' (Ne.symm hj) hx').2 (hseq ▸ hx)
    · rcases eq_or_ne j' i with rfl | hji'
      · exact (hnew j hji hx).2 (hseq ▸ hx')
      · exact h.apart j j' hj x (hnew j hji hx).1 (hnew j' hji' hx').1
  · have hxi : x ∉ l ++ k := hseq ▸ hx i
    refine Or.inr ⟨hxi, fun j hxj => ?_⟩
    rcases hcover j with hj | hj
    · exact hx j (hj ▸ hxj)
    · exact hxi (hj x hxj)

omit [DecidableEq T] in
theorem Inv.notMem (h : Inv E s seq) (ht : s.Idle t) : t ∉ seq i := by
  intro hm
  have hd := (h.ringed i).denotes
  have hsingle := (hd.ring (List.ne_nil_of_mem hm)).eq_singleton hd.nodup hm ht.1.1
  refine ht.2 i ?_
  rw [hd.last, hsingle]
  rfl

omit [DecidableEq T] in
theorem Inv.nodup_append (h : Inv E s seq) (hij : i ≠ j) : (seq i ++ seq j).Nodup := by
  refine List.nodup_append.mpr ⟨(h.ringed i).denotes.nodup, (h.ringed j).denotes.nodup, ?_⟩
  rintro x hx y hy rfl
  exact h.apart i j hij x hx hy

theorem Inv.setCond (h : Inv E s seq) (ht : s.Idle t) (c : Option WaitCondition) :
    Inv E (s.setCond t c) seq := by
  refine h.update (k := [t]) (fun x _ => ⟨rfl, rfl⟩) (fun x _ => ⟨rfl, rfl⟩) (fun x hx => ?_)
    (fun i => Or.inr ⟨rfl, rfl, fun x hx hxt => ?_⟩) h.apart fun x hx => Or.inl (h.alone x hx)
  · have hne : x ≠ t := by simpa using hx
    simp only [Queues.setCond, Function.update_of_ne hne]
  · rw [List.mem_singleton.mp hxt] at hx
    exact h.notMem ht hx

omit [DecidableEq T] in
/-- A waiter that no list holds is a list by itself. -/
theorem Inv.single (h : Inv E s seq) (ht : s.Idle t) : Ringed E s (some t) [t] where
  denotes := ⟨rfl, fun _ => Links.ring_singleton.mpr ht.1, List.nodup_singleton t⟩
  rings := .singleton (h.alone t fun _ => h.notMem ht)
  joined := .singleton

/-- A waiter is put at one end of the queue. -/
theorem Inv.push (hE : Equivalence fun c d => waitConditionEq E (some c) (some d) = true)
    (h : Inv E s seq) (ht : s.Idle t) {p : Links T × Option T}
    (hlk : l = seq .mu ∧ k = [t] ∨ l = [t] ∧ k = seq .mu) (hden : Denotes p.1 p.2 (l ++ k))
    (hq : Dll.Untouched s.q p.1 (l ++ k)) :
    Inv E ((s.mergeConditions E l.getLast? k.head?).setList .mu p)
      (Function.update seq .mu (l ++ k)) := by
  have hmu := h.ringed .mu
  have hone := h.single ht
  obtain ⟨p₁, hl⟩ : ∃ p, Ringed E s p l := by
    rcases hlk with ⟨rfl, -⟩ | ⟨rfl, -⟩
    · exact ⟨_, hmu⟩
    · exact ⟨_, hone⟩
  obtain ⟨p₂, hk⟩ : ∃ p, Ringed E s p k := by
    rcases hlk with ⟨-, rfl⟩ | ⟨-, rfl⟩
    · exact ⟨_, hone⟩
    · exact ⟨_, hmu⟩
  have hmem : ∀ x, x ∈ l ++ k ↔ x ∈ seq .mu ∨ x = t := by
    intro x
    rcases hlk with ⟨rfl, rfl⟩ | ⟨rfl, rfl⟩
    · simp
    · simp [or_comm]
  refine h.join hl hk hden.nodup hq (i := .mu) ?_ rfl rfl ?_ (fun j hj => Or.inr ⟨?_, ?_, ?_⟩)
    (fun j => ?_) hE
  · simpa only [setList, Function.update_self] using hden
  · simp
  · simp only [setList, mergeConditions, Function.update_of_ne hj]
  · simp only [Function.update_of_ne hj]
  · intro x hx hxk
    rcases (hmem x).mp hxk with hxm | rfl
    · exact h.apart j .mu hj x hx hxm
    · exact h.notMem ht hx
  · rcases eq_or_ne j .mu with rfl | hj
    · exact Or.inr fun x hx => (hmem x).mpr (Or.inl hx)
    · exact Or.inl (by simp only [Function.update_of_ne hj])

theorem Inv.enqueueWait (hE : Equivalence fun c d => waitConditionEq E (some c) (some d) = true)
    (h : Inv E s seq) (ht : s.Idle t) (firstWait : Bool) (c : Option WaitCondition) :
    Inv E (s.enqueueWait E firstWait t c)
      (Function.update seq .mu (if firstWait then seq .mu ++ [t] else t :: seq .mu)) := by
  have h₁ := h.setCond ht c
  have ht₁ : (s.setCond t c).Idle t := ht
  have hd := (h₁.ringed .mu).denotes
  have hnm : t ∉ seq .mu := h.notMem ht
  cases firstWait with
  | true =>
      have hpush := h₁.push hE ht₁ (Or.inl ⟨rfl, rfl⟩)
        (p := (s.setCond t c).q.makeLast ((s.setCond t c).list .mu) t) (hd.makeLast ht.1 hnm)
        fun x hx => hd.makeLast_outside ht.1 (by simp_all) (by simp_all)
      rw [← hd.last, ← Dll.makeLastInList_some] at hpush
      exact hpush
  | false =>
      have hpush := h₁.push hE ht₁ (l := [t]) (Or.inr ⟨rfl, rfl⟩)
        (p := (s.setCond t c).q.makeFirst ((s.setCond t c).list .mu) t) (hd.makeFirst ht.1 hnm)
        fun x hx => hd.makeFirst_outside ht.1 (by simp_all) (by simp_all)
      rw [← hd.firstOf, ← Dll.makeFirstInList_some] at hpush
      exact hpush

/-- Queueing for the lock is a wait without a condition. -/
theorem enqueueLock_eq (firstWait : Bool) :
    s.enqueueLock firstWait t = s.enqueueWait E firstWait t none := by
  have hlast : ∀ p, (s.setCond t none).mergeConditions E p (some t) = s.setCond t none := by
    intro p
    cases p <;> simp [mergeConditions, maybeMergeConditions, Queues.setCond, waitConditionEq]
  have hfirst : ∀ n, (s.setCond t none).mergeConditions E (some t) n = s.setCond t none := by
    intro n
    cases n <;> simp [mergeConditions, maybeMergeConditions, Queues.setCond, waitConditionEq]
  cases firstWait
  · simp only [enqueueLock, Queues.enqueueWait, hfirst]
    rfl
  · simp only [enqueueLock, Queues.enqueueWait, hlast]
    rfl

theorem Inv.concatWaiters (hE : Equivalence fun c d => waitConditionEq E (some c) (some d) = true)
    (h : Inv E s seq) : Inv E (s.concatWaiters E) (Function.update
      (Function.update seq .waiters (seq .waiters ++ seq .newWaiters)) .newWaiters []) := by
  have hl := h.ringed .waiters
  have hk := h.ringed .newWaiters
  have hnd : (seq .waiters ++ seq .newWaiters).Nodup := h.nodup_append (by decide)
  have hp : Dll.last (s.list .waiters) = (seq .waiters).getLast? := hl.denotes.last
  have hn : Dll.first s.q (s.list .newWaiters) = (seq .newWaiters).head? := hk.denotes.firstOf
  -- an empty list of new waiters changes nothing
  obtain ⟨hden, hq⟩ : Denotes (Dll.makeLastInList s.q (s.list .waiters) (s.list .newWaiters)).1
      (Dll.makeLastInList s.q (s.list .waiters) (s.list .newWaiters)).2
        (seq .waiters ++ seq .newWaiters) ∧
      Dll.Untouched s.q (Dll.makeLastInList s.q (s.list .waiters) (s.list .newWaiters)).1
        (seq .waiters ++ seq .newWaiters) := by
    cases hnew : s.list .newWaiters with
    | none =>
        have hnil : seq .newWaiters = [] := hk.denotes.eq_none.mp hnew
        rw [hnil, List.append_nil]
        exact ⟨hl.denotes, fun _ _ => ⟨rfl, rfl⟩⟩
    | some e =>
        have he : (seq .newWaiters).getLast? = some e := hk.denotes.last.symm.trans hnew
        have hr := hk.denotes.ring (List.ne_nil_of_mem (List.mem_of_getLast? he))
        rw [Dll.makeLastInList_some]
        exact ⟨hl.denotes.makeLast_ring hr hnd he,
          Dll.untouched_makeFirst hl.denotes hr (hr.next_mem (List.mem_of_getLast? he))⟩
  refine h.join hl hk hnd (i := .waiters) ?_ ?_ rfl ?_ ?_ (fun j hj => ?_) (fun j => ?_) hE
  · exact hq
  · simpa [Queues.concatWaiters, setList, mergeConditions, Dll.last] using hden
  · simp only [Queues.concatWaiters, setList, mergeConditions, hp, hn]
  · simp
  · cases j with
    | mu =>
        refine Or.inr ⟨by simp [Queues.concatWaiters, setList, mergeConditions], by simp, ?_⟩
        intro x hx hm
        rcases List.mem_append.mp hm with hm | hm
        · exact h.apart .mu .waiters (by decide) x hx hm
        · exact h.apart .mu .newWaiters (by decide) x hx hm
    | waiters => exact (hj rfl).elim
    | newWaiters => exact Or.inl ⟨by simp [Queues.concatWaiters], by simp⟩
  · cases j with
    | mu => exact Or.inl (by simp)
    | waiters => exact Or.inr fun x hx => by simp [hx]
    | newWaiters => exact Or.inr fun x hx => by simp [hx]

omit [DecidableEq T] in
/-- A list is assigned to a variable that held none. -/
theorem Inv.move (h : Inv E s seq) (hij : i ≠ j) (hj : s.list j = none) :
    Inv E { s with list := Function.update (Function.update s.list j (s.list i)) i none }
      (Function.update (Function.update seq j (seq i)) i []) := by
  have hempty : seq j = [] := (h.ringed j).denotes.eq_none.mp hj
  have hback : ∀ m x, x ∈ (Function.update (Function.update seq j (seq i)) i []) m →
      m = j ∧ x ∈ seq i ∨ m ≠ i ∧ m ≠ j ∧ x ∈ seq m := by
    intro m x hx
    rcases eq_or_ne m i with rfl | hmi
    · simp at hx
    · rw [Function.update_of_ne hmi] at hx
      rcases eq_or_ne m j with rfl | hmj
      · exact Or.inl ⟨rfl, by simpa using hx⟩
      · exact Or.inr ⟨hmi, hmj, by simpa [hmj] using hx⟩
  refine ⟨fun m => ?_, fun m m' hm x hx hx' => ?_, fun x hx => h.alone x fun m hxm => ?_⟩
  · rcases eq_or_ne m i with rfl | hmi
    · simp only [Function.update_self]
      exact ⟨.empty _, .nil, .nil⟩
    · simp only [Function.update_of_ne hmi]
      have hr : ∀ m', Ringed E
          { s with list := Function.update (Function.update s.list j (s.list i)) i none }
          (s.list m') (seq m') := fun m' => ⟨(h.ringed m').1, (h.ringed m').2, (h.ringed m').3⟩
      rcases eq_or_ne m j with rfl | hmj
      · simp only [Function.update_self]
        exact hr i
      · simp only [Function.update_of_ne hmj]
        exact hr m
  · rcases hback m x hx with ⟨rfl, hxi⟩ | ⟨hmi, hmj, hxm⟩ <;>
      rcases hback m' x hx' with ⟨rfl, hxi'⟩ | ⟨hmi', hmj', hxm'⟩
    · exact hm rfl
    · exact h.apart i m' (Ne.symm hmi') x hxi hxm'
    · exact h.apart m i hmi x hxm hxi'
    · exact h.apart m m' hm x hxm hxm'
  · rcases eq_or_ne m i with rfl | hmi
    · exact hx j (by simpa [Ne.symm hij] using hxm)
    · rcases eq_or_ne m j with rfl | hmj
      · rw [hempty] at hxm
        cases hxm
      · exact hx m (by simpa [hmi, hmj] using hxm)

theorem Inv.removeFromMuQueue
    (hE : Equivalence fun c d => waitConditionEq E (some c) (some d) = true)
    (h : Inv E s seq) (he : e ∈ seq i) :
    Inv E (s.removeFromMuQueue E i e) (Function.update seq i ((seq i).erase e)) := by
  have hr := h.ringed i
  have hnd := hr.denotes.nodup
  obtain ⟨hrings, hout, hnext, hprev⟩ := rings_remove (fun _ _ _ => CondEq.trans hE)
    (fun _ _ hxy => hxy) hr.rings hnd he
  have hmem : ∀ j x, x ∈ Function.update seq i ((seq i).erase e) j → x ∈ seq j := by
    intro j x hx
    rcases eq_or_ne j i with rfl | hj
    · exact List.mem_of_mem_erase (by simpa using hx)
    · simpa only [Function.update_of_ne hj] using hx
  have hcond : ∀ x, ((Function.update s.wtr e
      { s.wtr e with removeCount := (s.wtr e).removeCount + 1 }) x).cond = (s.wtr x).cond := by
    intro x
    rcases eq_or_ne x e with rfl | hx
    · rw [Function.update_self]
    · rw [Function.update_of_ne hx]
  rw [removeFromMuQueue_eq hr.denotes he]
  refine h.update (k := seq i) (fun x hx => hr.denotes.unlink_outside he hx) hout
    (fun x _ => hcond x) (fun j => ?_) (fun j j' hj x hx hx' => ?_) fun x hx => ?_
  · rcases eq_or_ne j i with rfl | hj
    · left
      simp only [Function.update_self]
      refine ⟨hr.denotes.removeFrom he, ?_, ?_⟩
      · exact hrings.congr (fun _ _ => rfl) (fun _ _ => rfl) fun x _ y _ hxy =>
          (condEq_congr (hcond x) (hcond y)).mpr hxy
      · exact (joined_remove hE hr.joined hr.rings hnd he).congr (fun _ _ => rfl)
          fun x _ y _ hxy => (condEq_congr (hcond x) (hcond y)).mp hxy
    · refine Or.inr ⟨?_, ?_, fun x hx => h.apart j i hj x hx⟩
      · simp only [Function.update_of_ne hj]
      · simp only [Function.update_of_ne hj]
  · exact h.apart j j' hj x (hmem j x hx) (hmem j' x hx')
  · rcases eq_or_ne x e with rfl | hxe
    · exact Or.inl ⟨hnext, hprev⟩
    · have hxi : x ∉ seq i := fun hm => hx i (by simpa using (List.mem_erase_of_ne hxe).mpr hm)
      refine Or.inr ⟨hxi, fun j hxj => ?_⟩
      rcases eq_or_ne j i with rfl | hj
      · exact hxi hxj
      · exact hx j (by simpa only [Function.update_of_ne hj] using hxj)

/-- Every update keeps the lists and the rings in step. -/
theorem Inv.apply (hE : Equivalence fun c d => waitConditionEq E (some c) (some d) = true)
    (h : Inv E s seq) (u : Update T) (hu : u.Allowed s) : ∃ seq', Inv E (u.apply E s) seq' := by
  have hholds : ∀ i x, x ∈ seq i → s.Holds i x := fun i x hx => ⟨seq i, (h.ringed i).denotes, hx⟩
  cases u with
  | wait firstWait t c => exact ⟨_, h.enqueueWait hE hu firstWait c⟩
  | lock firstWait t =>
      rw [Update.apply, enqueueLock_eq (E := E)]
      exact ⟨_, h.enqueueWait hE hu firstWait none⟩
  | remove i e =>
      obtain ⟨l, hd, he⟩ := hu
      obtain rfl : l = seq i := hd.unique (h.ringed i).denotes
      exact ⟨_, h.removeFromMuQueue hE he⟩
  | take => exact ⟨_, h.move (i := .mu) (by decide) hu.2⟩
  | concatAndTake =>
      exact ⟨_, (h.concatWaiters hE).move (i := .mu) (j := .newWaiters) (by decide)
        (by simp [Queues.concatWaiters])⟩
  | putBack => exact ⟨_, h.move (i := .waiters) (by decide) hu.1⟩
  | elsewhere q =>
      refine ⟨seq, fun i => ⟨?_, (h.ringed i).rings, (h.ringed i).joined⟩, h.apart, h.alone⟩
      exact (h.ringed i).denotes.congr (fun x hx => (hu i x (hholds i x hx)).1)
        fun x hx => (hu i x (hholds i x hx)).2

omit [DecidableEq T] in
theorem Inv.holds_iff (h : Inv E s seq) (x : T) : s.Holds i x ↔ x ∈ seq i := by
  constructor
  · rintro ⟨l, hd, hx⟩
    exact hd.unique (h.ringed i).denotes ▸ hx
  · exact fun hx => ⟨seq i, (h.ringed i).denotes, hx⟩

end

/-- No waiter is queued, and no two are in one ring. -/
def Empty (s : Queues T) : Prop := (∀ i, s.list i = none) ∧ ∀ x, s.same.Alone x

/-- A ring of waiters: one waiter, or waiters with equal conditions. -/
structure RingOf (E : Env σ) (s : Queues T) (g : List T) : Prop where
  ring : s.same.Ring g
  equal : ∀ x ∈ g, (s.wtr x).cond ≠ none → ∀ y ∈ g, CondEq E s.wtr x y
  single : ∀ x ∈ g, (s.wtr x).cond = none → g = [x]

variable {E : Env σ}

omit [DecidableEq T] in
theorem RingOf.of_pairwise (hE : Equivalence fun c d => waitConditionEq E (some c) (some d) = true)
    {s : Queues T} {g : List T} (hr : s.same.Ring g) (hp : g.Pairwise (CondEq E s.wtr)) :
    RingOf E s g where
  ring := hr
  equal x hx hc y hy := by
    rcases eq_or_ne x y with rfl | hxy
    · obtain ⟨c, hcx⟩ := Option.ne_none_iff_exists'.mp hc
      rw [CondEq, hcx]
      exact hE.refl c
    · have : Std.Symm (CondEq E s.wtr) := ⟨fun _ _ => CondEq.symm hE⟩
      exact hp.forall hx hy hxy
  single x hx hc := by
    obtain ⟨g₁, g₂, rfl⟩ := List.append_of_mem hx
    obtain ⟨-, hp₂, hp₁⟩ := List.pairwise_append.mp hp
    have h₁ : g₁ = [] := List.eq_nil_iff_forall_not_mem.mpr fun y hy =>
      (hp₁ y hy x (by simp)).isSome.2 hc
    have h₂ : g₂ = [] := List.eq_nil_iff_forall_not_mem.mpr fun y hy =>
      ((List.pairwise_cons.mp hp₂).1 y hy).isSome.1 hc
    rw [h₁, h₂, List.nil_append]

/-- After any sequence of updates, the rings cut every list into segments. -/
theorem rings_partition_queue
    (hE : Equivalence fun c d => waitConditionEq E (some c) (some d) = true) {s₀ s : Queues T}
    (h₀ : s₀.Empty) (h : Reach (fun u s => some (Update.apply E u s)) Update.Allowed s₀ s) :
    (∀ i, ∃ parts : List (List T), Denotes s.q (s.list i) parts.flatten ∧
      (∀ g ∈ parts, RingOf E s g) ∧
      parts.IsChain fun g g' => ∀ x ∈ g, ∀ y ∈ g', ¬CondEq E s.wtr x y) ∧
    (∀ i j x, s.Holds i x → s.Holds j x → i = j) ∧
    ∀ x, (∀ i, ¬s.Holds i x) → s.same.Alone x := by
  have hinv : ∃ seq, Inv E s seq := by
    refine h.invariant (I := fun s => ∃ seq, Inv E s seq) ?_ fun u a b _ ⟨seq, ha⟩ hu hb => ?_
    · refine ⟨fun _ => [], fun i => ?_, fun i j _ x hx => ?_, fun x _ => h₀.2 x⟩
      · rw [h₀.1 i]
        exact ⟨.empty _, .nil, .nil⟩
      · cases hx
    · cases hb
      exact ha.apply hE u hu
  obtain ⟨seq, hinv⟩ := hinv
  refine ⟨fun i => ?_, fun i j x hi hj => ?_, fun x hx => ?_⟩
  · have hr := hinv.ringed i
    obtain ⟨parts, hflat, hparts, hmax⟩ := Segmented.parts (fun _ _ hxy => hxy.symm hE)
      (fun _ _ _ hxy hyz => hxy.trans hE hyz) hr.rings hr.joined hr.denotes.nodup
    refine ⟨parts, hflat ▸ hr.denotes, fun g hg => ?_, hmax⟩
    exact .of_pairwise hE (hparts g hg).1 (hparts g hg).2
  · by_contra hij
    exact hinv.apart i j hij x ((hinv.holds_iff x).mp hi) ((hinv.holds_iff x).mp hj)
  · exact hinv.alone x fun i hm => hx i ((hinv.holds_iff x).mpr hm)

/-- An empty queue, and a client whose arguments are equal when their addresses are. -/
def emptyQueues : Queues (Fin 3) where
  wtr _ := ⟨false, 0, 0, false, .writer, none⟩
  q := .singletons
  same := .singletons
  list _ := none

def plainEnv : Env Unit where
  call _ _ _ := false
  argEq _ a b := a == b
  semV n := n + 1

theorem plainEnv_equivalence :
    Equivalence fun c d => waitConditionEq plainEnv (some c) (some d) = true := by
  have hiff : ∀ c d, waitConditionEq plainEnv (some c) (some d) = true ↔ c.f = d.f ∧ c.v = d.v := by
    intro c d
    cases hc : c.eq <;> simp [waitConditionEq, plainEnv, hc]
  simp only [hiff]
  exact ⟨fun _ => ⟨rfl, rfl⟩, fun h => ⟨h.1.symm, h.2.symm⟩,
    fun h h' => ⟨h.1.trans h'.1, h.2.trans h'.2⟩⟩

/-- Two waiters with one condition are queued, the first is removed, and a third
one without a condition comes first. -/
def queueUpdates : List (Update (Fin 3)) :=
  [.wait true 0 (some ⟨1, 7, none⟩), .wait true 1 (some ⟨1, 7, some 2⟩), .remove .mu 0,
    .lock false 2]

theorem rings_partition_queueUpdates : ∃ s, s = queueUpdates.foldl
      (fun s u => u.apply plainEnv s) emptyQueues ∧ s.list .mu = some 1 ∧
    ∃ parts : List (List (Fin 3)), Denotes s.q (s.list .mu) parts.flatten ∧
      ∀ g ∈ parts, RingOf plainEnv s g := by
  refine ⟨_, rfl, by decide, ?_⟩
  have h₀ : emptyQueues.Empty := ⟨fun _ => rfl, fun _ => ⟨rfl, rfl⟩⟩
  have h₁ : Reach (fun u s => some (Update.apply plainEnv u s)) Update.Allowed emptyQueues _ :=
    Reach.start.step (Update.wait true 0 (some ⟨1, 7, none⟩))
      ⟨⟨rfl, rfl⟩, fun i => by cases i <;> decide⟩ rfl
  have h₂ := h₁.step (Update.wait true 1 (some ⟨1, 7, some 2⟩))
    ⟨⟨rfl, rfl⟩, fun i => by cases i <;> decide⟩ rfl
  have h₃ := h₂.step (Update.remove .mu 0)
    ⟨[0, 1], ⟨rfl, fun _ => ⟨by simp, ?_, ?_⟩, by simp⟩, by simp⟩ rfl
  · have h₄ := h₃.step (Update.lock false 2) ⟨⟨rfl, rfl⟩, fun i => by cases i <;> decide⟩ rfl
    obtain ⟨parts, hd, hr, -⟩ := (rings_partition_queue plainEnv_equivalence h₀ h₄).1 .mu
    exact ⟨parts, hd, hr⟩
  · rw [List.isChain_pair]
    exact ⟨rfl, rfl⟩
  · rintro a ⟨⟩ b ⟨⟩
    exact ⟨rfl, rfl⟩

end Queues

end Nsync.Mu
