import Nsync.Lib.Dll

/-!
# Doubly linked lists

The functions of `internal/dll.c`.  An `nsync_dll_element_` is a point of an
arbitrary type, whose link fields are in the heap, and an `nsync_dll_list_` is a
pointer to the last element, which is null for the empty list.
-/

namespace Nsync.Dll

open Nsync.Lib Links

variable {α : Type} [DecidableEq α]

/-! ## The functions of the source -/

/-- `nsync_dll_init_` -/
def init (h : Links α) (e : α) : Links α := (h.setNext e e).setPrev e e

/-- `nsync_dll_is_empty_` -/
def isEmpty (list : Option α) : Bool := list.isNone

/-- `nsync_dll_remove_` -/
def remove (h : Links α) (list : Option α) (e : α) : Links α × Option α :=
  let list' :=
    if list = some e then
      if h.prev e = e then none else some (h.prev e)
    else list
  let h₁ := h.setPrev (h.next e) (h.prev e)
  let h₂ := h₁.setNext (h₁.prev e) (h₁.next e)
  ((h₂.setNext e e).setPrev e e, list')

/-- `nsync_dll_splice_after_` -/
def spliceAfter (h : Links α) (p n : α) : Links α :=
  let p2nd := h.next p
  let nLast := h.prev n
  (((h.setNext p n).setPrev n p).setNext nLast p2nd).setPrev p2nd nLast

/-- `nsync_dll_make_first_in_list_` -/
def makeFirstInList (h : Links α) (list e : Option α) : Links α × Option α :=
  match e with
  | none => (h, list)
  | some e =>
      match list with
      | none => (h, some (h.prev e))
      | some l => (spliceAfter h l e, some l)

/-- `nsync_dll_make_last_in_list_` -/
def makeLastInList (h : Links α) (list e : Option α) : Links α × Option α :=
  match e with
  | none => (h, list)
  | some e => ((makeFirstInList h list (some (h.next e))).1, some e)

/-- `nsync_dll_first_` -/
def first (h : Links α) (list : Option α) : Option α := list.map h.next

/-- `nsync_dll_last_` -/
def last (list : Option α) : Option α := list

/-- `nsync_dll_next_` -/
def next (h : Links α) (list : Option α) (e : α) : Option α :=
  if some e ≠ list then some (h.next e) else none

/-- `nsync_dll_prev_`, which reads the first element of the list. -/
def prev (h : Links α) (list : Option α) (e : α) : Option α :=
  list.bind fun l => if e ≠ h.next l then some (h.prev e) else none

/-! ## Lists as sequences -/

variable {h : Links α} {list : Option α} {l k : List α} {e x : α}

/-- The list is the sequence `l`, whichever way it is read: the links are inverse to
each other, and both loops over the list visit `l` and come to null. -/
structure Implements (h : Links α) (list : Option α) (l : List α) : Prop where
  denotes : Denotes h list l
  empty_iff : isEmpty list = true ↔ l = []
  inverse : ∀ x ∈ l, h.prev (h.next x) = x ∧ h.next (h.prev x) = x
  forward : ∀ n, l.length ≤ n → visit (next h list) n (first h list) = some l
  backward : ∀ n, l.length ≤ n → visit (prev h list) n (last list) = some l.reverse

theorem next_eq_nextIn : next h list = h.nextIn list := by
  funext e
  rw [next, nextIn]
  by_cases hl : list = some e
  · rw [if_neg (by simp [hl]), if_pos hl]
  · rw [if_pos (Ne.symm hl), if_neg hl]

theorem prev_eq_prevIn : prev h list = h.prevIn list := by
  funext e
  rw [prev, prevIn]
  congr 1
  funext l
  rw [ite_not]

theorem makeFirstInList_some : makeFirstInList h list (some e) = h.makeFirst list e := by
  cases list <;> rfl

theorem makeLastInList_some : makeLastInList h list (some e) = h.makeLast list e := by
  rw [makeLastInList, makeFirstInList_some, Links.makeLast]

theorem Implements.of_denotes (hd : Denotes h list l) : Implements h list l where
  denotes := hd
  empty_iff := by rw [isEmpty, Option.isNone_iff_eq_none, hd.eq_none]
  inverse x hx := hd.inverse hx
  forward n hn := by
    have hd' : Denotes h list ([] ++ l) := hd
    have hfirst : first h list = l.head? := hd.firstOf
    rw [next_eq_nextIn, hfirst]
    exact hd'.visit_next hn
  backward n hn := by
    have hd' : Denotes h list (l ++ []) := by simpa using hd
    have hlast : last list = l.getLast? := hd.last
    rw [prev_eq_prevIn, hlast]
    exact hd'.visit_prev hn

/-- The links of the elements outside `l` are those of before. -/
def Untouched (h h' : Links α) (l : List α) : Prop :=
  ∀ x, x ∉ l → h'.next x = h.next x ∧ h'.prev x = h.prev x

theorem untouched_makeFirst (hd : Denotes h list l) (hk : h.Ring k) (he : e ∈ k) :
    Untouched h (h.makeFirst list e).1 (l ++ k) := by
  intro x hx
  obtain ⟨hxl, hxk⟩ : x ∉ l ∧ x ∉ k := by simpa using hx
  cases hl : list with
  | none => exact ⟨rfl, rfl⟩
  | some p =>
      have hp : p ∈ l := List.mem_of_getLast? (hd.last.symm.trans hl)
      exact Denotes.spliceAfter_outside (hd.ring (List.ne_nil_of_mem hp)) hk hp he hxl hxk

/-- The list operations on a list `l` and a ring `k`, as operations on sequences. -/
theorem lists_implement_sequences (hl : Denotes h list l) (hk : h.Ring k)
    (hnd : (l ++ k).Nodup) :
    Implements h list l ∧
    -- a null element changes nothing
    makeFirstInList h list none = (h, list) ∧ makeLastInList h list none = (h, list) ∧
    (∀ e, k.head? = some e →
      Implements (makeFirstInList h list (some e)).1 (makeFirstInList h list (some e)).2 (k ++ l) ∧
      Untouched h (makeFirstInList h list (some e)).1 (l ++ k)) ∧
    (∀ e, k.getLast? = some e →
      Implements (makeLastInList h list (some e)).1 (makeLastInList h list (some e)).2 (l ++ k) ∧
      Untouched h (makeLastInList h list (some e)).1 (l ++ k)) ∧
    (∀ e, k.head? = some e → ∀ l₁ p l₂, l = l₁ ++ p :: l₂ →
      Implements (spliceAfter h p e) list
        (if l₂ = [] then k ++ l else l₁ ++ p :: (k ++ l₂)) ∧
      Untouched h (spliceAfter h p e) (l ++ k)) ∧
    (∀ l₁ e l₂, l = l₁ ++ e :: l₂ →
      Implements (remove h list e).1 (remove h list e).2 (l₁ ++ l₂) ∧
      (remove h list e).1.Ring [e] ∧ Untouched h (remove h list e).1 l) := by
  refine ⟨.of_denotes hl, rfl, rfl, fun e he => ?_, fun e he => ?_, fun e he l₁ p l₂ hsplit => ?_,
    fun l₁ e l₂ hsplit => ?_⟩
  · rw [makeFirstInList_some]
    exact ⟨.of_denotes (hl.makeFirst_ring hk hnd he),
      untouched_makeFirst hl hk (List.mem_of_mem_head? he)⟩
  · rw [makeLastInList_some]
    have hnext : h.next e ∈ k := hk.next_mem (List.mem_of_getLast? he)
    exact ⟨.of_denotes (hl.makeLast_ring hk hnd he), untouched_makeFirst hl hk hnext⟩
  · have hp : p ∈ l := by simp [hsplit]
    refine ⟨?_, fun x hx => ?_⟩
    · split
      · next hl₂ =>
          have hlast : list = some p := by rw [hl.last, hsplit, hl₂]; simp
          subst hlast
          exact .of_denotes (hl.spliceAfter_last hk hnd he)
      · next hl₂ =>
          subst hsplit
          exact .of_denotes (hl.spliceAfter hl₂ hk hnd he)
    · obtain ⟨hxl, hxk⟩ : x ∉ l ∧ x ∉ k := by simpa using hx
      exact Denotes.spliceAfter_outside (hl.ring (List.ne_nil_of_mem hp)) hk hp
        (List.mem_of_mem_head? he) hxl hxk
  · have he : e ∈ l := by simp [hsplit]
    have he₁ : e ∉ l₁ := by
      intro hm
      have hndl := hl.nodup
      rw [hsplit] at hndl
      exact (List.nodup_append.mp hndl).2.2 e hm e (by simp) rfl
    have herase : l.erase e = l₁ ++ l₂ := by
      rw [hsplit, List.erase_append_right _ he₁, List.erase_cons_head]
    exact ⟨.of_denotes (herase ▸ hl.removeFrom he), ring_singleton.mpr Denotes.alone_unlink,
      fun x hx => hl.unlink_outside he hx⟩

/-- Two rings of two elements each. -/
def twoPairs : Links (Fin 4) where
  next := ![1, 0, 3, 2]
  prev := ![1, 0, 3, 2]

theorem lists_implement_sequences_twoPairs :
    Implements (makeFirstInList twoPairs (some 1) (some 2)).1 (some 1) [2, 3, 0, 1] ∧
    Implements (makeLastInList twoPairs (some 1) (some 3)).1 (some 3) [0, 1, 2, 3] ∧
    Implements (spliceAfter twoPairs 0 2) (some 1) [0, 2, 3, 1] ∧
    Implements (remove twoPairs (some 1) 1).1 (some 0) [0] := by
  have hl : Denotes twoPairs (some 1) [0, 1] :=
    ⟨rfl, fun _ => ⟨by simp, by simp [Linked, twoPairs], by simp [Linked, twoPairs]⟩, by simp⟩
  have hk : twoPairs.Ring [2, 3] := ⟨by simp, by simp [Linked, twoPairs], by simp [Linked, twoPairs]⟩
  obtain ⟨-, -, -, hfirst, hlast, hsplice, hremove⟩ :=
    lists_implement_sequences hl hk (by decide)
  exact ⟨(hfirst 2 rfl).1, (hlast 3 rfl).1, (hsplice 2 rfl [] 0 [1] rfl).1, (hremove [0] 1 [] rfl).1⟩

end Nsync.Dll
