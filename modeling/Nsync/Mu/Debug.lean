import Nsync.Mu.Exclusion
import Nsync.Mu.Summary

/-!
# Debugging output

`emit_mu_state` takes the spinlock with a CAS and gives it back with a store of
the word that it found then.  Other threads change the mutex word without the
spinlock, and the store undoes what they did in between.  If they do nothing in
between, debugging output changes the words by nothing but their spinlock bits,
and all that is true without it stays true.
-/

namespace Nsync.Mu

open Nsync.Lib

variable {T σ : Type} [DecidableEq T]

/-- The step does not change the mutex word while another thread is between the
CAS and the store of `emit_mu_state`. -/
def Undisturbed (E : Env σ) (t : T) (a : Act σ) (s : State T σ) : Prop :=
  ∀ s', step E t a s = some s' → Quiet t s s'

/-- Going from `s` to `s'` changes the words by nothing but their spinlock bits,
and changes no queue. -/
structure SameButSpin (s s' : State T σ) : Prop where
  mu : s'.word &&& ~~~muSpinlock = s.word &&& ~~~muSpinlock
  cv : ∀ c, (s'.cv c).word &&& ~~~cvSpinlock = (s.cv c).word &&& ~~~cvSpinlock
  waiters : s'.waiters = s.waiters
  cvWaiters : ∀ c, (s'.cv c).waiters = (s.cv c).waiters

/-- The summary bits cover the queue of the mutex, and `MU_DESIG_WAKER` is set
only while somebody is responsible for it. -/
structure State.Summarised (s : State T σ) : Prop where
  waiting : s.waiters ≠ [] → s.word &&& muWaiting ≠ 0#32
  condition : ∀ y ∈ s.waiters, (s.wtr y).cond ≠ none → s.word &&& muCondition ≠ 0#32
  desig : s.word &&& muDesigWaker ≠ 0#32 →
    (∃ u, (s.pc u).waking = true) ∨ ∃ u, s.dequeued u = true

variable {E : Env σ} {C : WaitCondition → Prop} {s s' : State T σ} {loc : T → Loc T} {t : T} {x : σ}

theorem or_andNot_self (w m : Word) : (w ||| m) &&& ~~~m = w &&& ~~~m := by
  apply BitVec.eq_of_getLsbD_eq
  intro i hi
  simp only [BitVec.getLsbD_and, BitVec.getLsbD_or, BitVec.getLsbD_not, hi, decide_true,
    Bool.true_and]
  cases m.getLsbD i <;> simp

theorem spinWord_andNot (old m : Word) : spinWord m 0#32 old &&& ~~~m = old &&& ~~~m := by
  have hone : spinWord m 0#32 old = old ||| m := BitVec.and_allOnes
  rw [hone, or_andNot_self]

theorem SameButSpin.setPc (s : State T σ) (t : T) (p : Pc T) : SameButSpin s (s.setPc t p) :=
  ⟨rfl, fun _ => rfl, rfl, fun _ => rfl⟩

section

variable [Fintype T]

omit [DecidableEq T] in
theorem Good.summarised (h : Good E C s loc) : s.Summarised where
  waiting hne := by
    obtain ⟨y, hy⟩ := List.exists_mem_of_ne_nil _ hne
    exact h.waiting_of_mem hy
  condition y hy := h.condition_of_mem hy
  desig hd := by
    rw [ne_eq, and_muDesigWaker, Bool.not_eq_false] at hd
    exact (h.inv.queue.desig hd).imp (fun ⟨u, hu⟩ => ⟨u, Pc.waking_of_region hu⟩) id

omit [DecidableEq T] in
/-- The word that `emit_mu_state` stores is the present one without the
spinlock. -/
theorem Good.word_of_dbg (h : Good E C s loc) {w : Word} (ht : (s.pc t).spinRole = .dbg w) :
    s.word &&& ~~~muSpinlock = w &&& ~~~muSpinlock := by
  obtain ⟨hv, -⟩ := h.inv.lock.dbg t w ht
  have hw : view s.word = view (spinWord muSpinlock 0#32 w) := by
    rw [view_spinWord]
    exact hv
  rw [view_injective hw, spinWord_andNot]

omit [DecidableEq T] in
theorem Good.cvWord_of_dbg (h : Good E C s loc) {c : Addr} {w : Word}
    (ht : (s.pc t).cvRole = .dbg c w) :
    (s.cv c).word &&& ~~~cvSpinlock = w &&& ~~~cvSpinlock := by
  have hw : (s.cv c).word = w ||| cvSpinlock := (h.inv.cv.dbg t c w ht).1
  rw [hw, or_andNot_self]

end

/-- Another word for one condition variable that differs in the spinlock. -/
theorem SameButSpin.setCv {c : Addr} {w : Word}
    (hw : w &&& ~~~cvSpinlock = (s.cv c).word &&& ~~~cvSpinlock) (p : Pc T) :
    SameButSpin s ((s.setCv c { s.cv c with word := w }).setPc t p) := by
  refine ⟨rfl, fun d => ?_, rfl, fun d => ?_⟩
  all_goals
    by_cases hd : d = c
    · subst hd
      simp [State.setPc, State.setCv, hw]
    · simp [State.setPc, State.setCv, hd]

theorem SameButSpin.setWord {w : Word} (hw : w &&& ~~~muSpinlock = s.word &&& ~~~muSpinlock)
    (p : Pc T) : SameButSpin s ((s.setWord w).setPc t p) :=
  ⟨hw, fun _ => rfl, rfl, fun _ => rfl⟩

variable [Fintype T]

/-- One step of debugging output, from a state in which no update is lost. -/
theorem Good.debug_step (h : Good E C s loc) {l : Debug} {p : DebugPc} {ch : Choice}
    (hpc : s.pc t = .debug l p) (hs : step E t (.step ch) s = some s') : SameButSpin s s' := by
  simp only [step, hpc, Option.some.injEq] at hs
  subst hs
  obtain ⟨held, target, b⟩ := l
  rcases p with _ | ⟨_ | old⟩ | w
  · simp only [debugState]
    repeat' split
    all_goals exact .setPc s t _
  · simp only [debugState]
    repeat' split
    all_goals exact .setPc s t _
  · cases target with
    | none =>
        simp only [debugState]
        split
        · next heq => exact .setWord (by rw [spinWord_andNot, heq]) _
        · exact .setPc s t _
    | some c =>
        simp only [debugState]
        split
        · next heq => exact .setCv (by rw [spinWord_andNot, heq]) _
        · exact .setPc s t _
  · cases target with
    | none => exact .setWord (h.word_of_dbg (t := t) (by rw [hpc]; rfl)).symm _
    | some c => exact .setCv (h.cvWord_of_dbg (t := t) (by rw [hpc]; rfl)).symm _

/-- Any threads, fewer than the reader field can count, call the functions of
`nsync_mu` and `nsync_cv` and those for debugging output, and nobody changes the
mutex word between the CAS and the store of `emit_mu_state`.  Then every step of
debugging output changes the words by nothing but the spinlock bits, the word
accounts for the holders, and its summary bits for the queue. -/
theorem debug_keeps_words (hcard : Fintype.card T < 2 ^ 24)
    (h : Reachable E (Undisturbed E) x s) :
    s.Accounted ∧ s.Summarised ∧ ∀ t l p ch s', s.pc t = .debug l p →
      step E t (.step ch) s = some s' → SameButSpin s s' := by
  obtain ⟨loc, hg⟩ := h.good (C := fun _ => True) fun t a s hP =>
    ⟨a.condIn_true, fits_of_card hcard t s, hP⟩
  exact ⟨hg.accounted, hg.summarised, fun t l p ch s' => hg.debug_step⟩

/-! ## With and without a lost update -/

def SpinRole.isDbg : SpinRole T → Bool
  | .dbg _ => true
  | _ => false

omit [DecidableEq T] [Fintype T] in
theorem SpinRole.isDbg_iff {r : SpinRole T} : r.isDbg = true ↔ ∃ w, r = .dbg w := by
  cases r <;> simp [isDbg]

instance (t : T) (s s' : State T σ) : Decidable (Quiet t s s') :=
  decidable_of_iff (∀ u, u ≠ t → (s.pc u).spinRole.isDbg = true → s'.word = s.word) <| by
    simp only [Quiet, SpinRole.isDbg_iff, forall_exists_index]
    exact forall_congr' fun u => forall_comm

instance (t : T) (a : Act σ) (s : State T σ) : Decidable (Undisturbed E t a s) :=
  decidable_of_iff (∀ s' ∈ step E t a s, Quiet t s s') <| by
    simp only [Undisturbed, Option.mem_def]

/-- Two readers hold the mutex, a writer queues, and the first reader asks for
the state of the mutex and takes the spinlock. -/
def twoReadersRun : List (Fin 3 × Act Bool) :=
  [(0, .call (.lock .reader))] ++ goOn 0 1 ++ [(1, .call (.lock .reader))] ++ goOn 1 3 ++
  [(2, .call (.lock .writer))] ++ goOn 2 8 ++ [(0, .call (.debug none true))] ++ goOn 0 3

/-- With the spinlock given back before anybody else goes on, the output
disturbs nothing. -/
theorem debug_keeps_words_twoReadersRun : ∃ s : State (Fin 3) Bool, Fintype.card (Fin 3) < 2 ^ 24 ∧
    Reachable flagEnv (Undisturbed flagEnv) false s ∧
    (∃ w, s.pc 0 = .debug ⟨some .reader, none, true⟩ (.store w)) ∧ s.waiters = [2] ∧
    ∀ s', step flagEnv 0 (.step .run) s = some s' → SameButSpin s s' := by
  obtain ⟨s, hs, hf⟩ := Reachable.exists_of_exec (T := Fin 3) (E := flagEnv)
    (P := Undisturbed flagEnv) (x := false) twoReadersRun
    (fun s => decide (s.pc 0 = .debug ⟨some .reader, none, true⟩ (.store 0x224#32) ∧
      s.waiters = [2])) (by decide +kernel)
  have hcard : Fintype.card (Fin 3) < 2 ^ 24 := by decide
  obtain ⟨hpc, hq⟩ := of_decide_eq_true hf
  exact ⟨s, hcard, hs, ⟨_, hpc⟩, hq,
    fun s' hstep => (debug_keeps_words hcard hs).2.2 0 _ _ .run s' hpc hstep⟩

/-- The second reader gives its share back while the first one prints.  The
store of `emit_mu_state` brings back the share that nobody holds, so the word no
longer accounts for the holders. -/
theorem debug_loses_update : ∃ s s' : State (Fin 3) Bool,
    Reachable flagEnv (fun _ _ _ => True) false s ∧
    (∃ l p, s.pc 0 = .debug l p) ∧ step flagEnv 0 (.step .run) s = some s' ∧
    ¬ SameButSpin s s' ∧ ¬ s'.Accounted := by
  obtain ⟨s, hs, hf⟩ := Reachable.exists_of_exec (T := Fin 3) (E := flagEnv)
    (P := fun _ _ _ => True) (x := false)
    (twoReadersRun ++ [(1, .call (.unlock .runlock))] ++ goOn 1 3)
    (fun s => decide (s.pc 0 = .debug ⟨some .reader, none, true⟩ (.store 0x224#32) ∧
      s.word = 0x126#32 ∧ (step flagEnv 0 (.step .run) s).map (fun s' =>
        (s'.word, (Finset.univ.filter fun u => (s'.pc u).lockRole = some .reader).card)) =
          some (0x224#32, 1)))
    (by decide +kernel)
  obtain ⟨hpc, hw, hstep⟩ := of_decide_eq_true hf
  obtain ⟨s', hs', heq⟩ := Option.map_eq_some_iff.mp hstep
  rw [Prod.mk.injEq] at heq
  obtain ⟨hw', hcount⟩ := heq
  refine ⟨s, s', hs, ⟨_, _, hpc⟩, hs', fun hsame => ?_, fun hacc => ?_⟩
  · have hmu := hsame.mu
    rw [hw, hw'] at hmu
    exact absurd hmu (by decide)
  · have hreaders := hacc.readers
    rw [hw', hcount] at hreaders
    exact absurd hreaders (by decide)

end Nsync.Mu
