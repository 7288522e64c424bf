import Nsync.Wait.Gone

/-!
# What `nsync_sem_wait_with_cancel_` returns

The result tells a token, the deadline of the caller and the cancellation by the note
apart, and nobody accesses the record of the call after the return.
-/

set_option linter.unusedSectionVars false

namespace Nsync.Wait

open Nsync.Lib

variable {T τ : Type}

/-- The tokens that the call has taken. -/
def SemPc.taken : SemPc τ → ℕ
  | .relock _ .ok _ | .unlink _ .ok _ | .unlock _ .ok _ | .result .ok _ => 1
  | _ => 0

/-- The tokens that an operation takes. -/
def Eff.takes {P : Type} : Eff τ P → ℕ
  | .take _ => 1
  | _ => 0

section

variable [DecidableEq T] [LinearOrder τ] [OrderTop τ] [Zero τ]

/-- A history variable: the tokens that each thread has taken from its semaphore since it
made its last call. -/
def tally (i : T × Act τ) (s s' : State T τ) (k : T → ℕ) : T → ℕ :=
  match i.2 with
  | .call _ => Function.update k i.1 0
  | .step _ => if s'.sem i.1 < s.sem i.1 then Function.update k i.1 (k i.1 + 1) else k
  | _ => k

/-- The tally counts what the calls of `nsync_sem_wait_with_cancel_` have taken. -/
def Tallied (s : State T τ) (k : T → ℕ) : Prop :=
  ∀ t d cancel p, .semWait d cancel p ∈ s.stack t → k t = p.taken

variable {s s' : State T τ} {t u : T} {ch : Choice} {f f' g c : Frame τ} {e : Eff τ (Frame τ)}
  {rest : List (Frame τ)} {v : Val τ} {d : τ} {cancel : Option ℕ} {p : SemPc τ} {k : T → ℕ}

/-! ## Tokens -/

/-- Other operations take no token. -/
theorem sem_le_apply (h : e.takes = 0) (u : T) : s.sem u ≤ (apply s t rest e).sem u := by
  cases e with
  | adopt n c p f' => cases p <;> exact le_rfl
  | link n p x f' =>
    simp only [apply]
    split <;> exact le_rfl
  | post nw f' =>
    simp only [apply]
    cases (s.nw nw).sem with
    | none => exact le_rfl
    | some o =>
      by_cases hu : u = o
      · subst hu
        simp
      · simp [hu]
  | take f' => cases h
  | _ => exact le_rfl

/-- Only the two waits take tokens, when there is one. -/
theorem action_take (h : action s t ch f = some (.take f')) : 0 < s.sem t ∧ f.fn = .client := by
  obtain ⟨d, cancel, p, rfl⟩ | ⟨w, p, rfl⟩ := action_allowed h
  · obtain ⟨e, he, hm⟩ := Option.map_eq_some_iff.mp h
    refine ⟨?_, rfl⟩
    cases cancel <;> cases p <;>
      simp only [semWaitWithCancel, lockNote, semaphoreP, Option.bind_none, Option.bind_some,
        Option.map_none, Option.map_some] at he <;> (repeat' split at he) <;> cases he <;>
      first | assumption | cases hm
  · obtain ⟨e, he, hm⟩ := Option.map_eq_some_iff.mp h
    refine ⟨?_, rfl⟩
    cases p <;> simp only [waitN, semaphoreP] at he <;> (repeat' split at he) <;> cases he <;>
      first | assumption | cases hm

/-- The tally counts the tokens that the operations of a thread take. -/
theorem tally_step {i : T × Act τ} (hi : i.2 = .step ch) (he : action s i.1 ch f = some e) :
    tally i s (apply s i.1 rest e) k = Function.update k i.1 (k i.1 + e.takes) := by
  rw [tally, hi]
  by_cases htake : ∃ f', e = .take f'
  · obtain ⟨f', rfl⟩ := htake
    have hpos := (action_take he).1
    have hlt : (apply s i.1 rest (.take f')).sem i.1 < s.sem i.1 := by
      simp only [apply, Function.update_self]
      omega
    simp only [hlt, if_true]
    rfl
  · have hzero : e.takes = 0 := by
      cases e with
      | take f' => exact absurd ⟨f', rfl⟩ htake
      | _ => rfl
    have hge : ¬ (apply s i.1 rest e).sem i.1 < s.sem i.1 := not_lt.mpr (sem_le_apply hzero i.1)
    simp only [hge, if_false]
    rw [hzero]
    exact (Function.update_eq_self i.1 k).symm

theorem semWait_taken {q : SemPc τ} (h : action s t ch (.semWait d cancel p) = some e)
    (hf' : e.place = some (.semWait d cancel q)) : q.taken = p.taken + e.takes := by
  obtain ⟨e, he, rfl⟩ := Option.map_eq_some_iff.mp h
  cases cancel with
  | none =>
    cases p <;>
      simp only [semWaitWithCancel, semaphoreP, Option.bind_none, Option.map_none] at he <;>
      (repeat' split at he) <;> cases he <;> cases hf' <;> rfl
  | some c =>
    cases p with
    | link nw =>
      simp only [semWaitWithCancel, Option.map_some] at he
      split at he
      · cases he
        split at hf' <;> cases hf' <;> rfl
      · cases he
        cases hf'
        rfl
    | relock nw o x =>
      simp only [semWaitWithCancel, lockNote, Option.bind_some] at he
      split at he <;> cases he
      cases hf'
      cases o <;> rfl
    | unlink nw o x =>
      simp only [semWaitWithCancel, Option.map_some] at he
      split at he <;> cases he <;> cases hf' <;> cases o <;> rfl
    | unlock nw o x =>
      cases he
      cases hf'
      cases o <;> rfl
    | _ =>
      simp only [semWaitWithCancel, lockNote, semaphoreP, Option.bind_some, Option.map_some] at he
      (repeat' split at he) <;> cases he <;> cases hf' <;> rfl

theorem resume_taken {q : SemPc τ} (h : c.resume v = .semWait d cancel q) :
    ∃ p, c = .semWait d cancel p ∧ q.taken = p.taken := by
  cases c with
  | semWait d' cancel' p =>
    cases p with
    | called =>
      cases v with
      | time x =>
        simp only [Frame.resume] at h
        split at h <;> cases h <;> exact ⟨_, rfl, rfl⟩
      | _ =>
        cases h
        exact ⟨_, rfl, rfl⟩
    | _ =>
      cases h
      exact ⟨_, rfl, rfl⟩
  | _ =>
    exfalso
    unfold Frame.resume at h
    (repeat' split at h) <;> contradiction

theorem Tallied.apply (hk : Tallied s k) (h : Safe s) {i : T × Act τ} (hi : i.2 = .step ch)
    (hst : s.stack i.1 = f :: rest) (he : action s i.1 ch f = some e) :
    Tallied (apply s i.1 rest e) (tally i s (apply s i.1 rest e) k) := by
  have hok : StackOk (f :: rest) := hst ▸ h.locks.stack.stack i.1
  have hold : ∀ g ∈ f :: rest, ∀ d cancel p, g = .semWait d cancel p → k i.1 = p.taken := by
    rintro g hg d cancel p rfl
    exact hk i.1 d cancel p (hst ▸ hg)
  rw [tally_step hi he]
  intro u d cancel p hp
  by_cases hu : u = i.1
  · subst hu
    rw [stack_apply hst] at hp
    rw [Function.update_self]
    have hplace : ∀ f', e.place = some f' → ∀ d cancel p, f' = .semWait d cancel p →
        k i.1 + e.takes = p.taken := by
      rintro f' hf' d cancel p rfl
      cases f with
      | semWait d' cancel' q =>
        obtain ⟨q', hq'⟩ := place_of_map he hf'
        cases hq'
        rw [semWait_taken he hf', hold _ List.mem_cons_self d cancel q rfl]
      | _ =>
        obtain ⟨q', hq'⟩ := place_of_map he hf'
        cases hq'
    by_cases hzero : e.takes = 0
    · rw [hzero] at hplace ⊢
      refine forall_mem_stack (P := fun g => ∀ d cancel p, g = .semWait d cancel p →
        k i.1 = p.taken) hold hplace ?_ ?_ _ hp d cancel p rfl
      · rintro g hg d cancel p rfl
        have hfits := action_fits he (h.locks.stack.past i.1 f (hst ▸ List.mem_cons_self))
        exact absurd rfl (hfits.callee_ne_client hg)
      · rintro v c l rfl rfl d cancel p hc
        obtain ⟨q, rfl, hq⟩ := resume_taken hc
        rw [hq]
        exact hold _ (List.mem_cons_of_mem f List.mem_cons_self) d cancel q rfl
    · -- Nobody takes a token above a call of `nsync_sem_wait_with_cancel_`.
      cases e with
      | take f' =>
        rw [hok.client (action_take he).2] at hp
        exact hplace f' rfl d cancel p (List.mem_singleton.mp hp).symm
      | _ => exact absurd rfl hzero
  · rw [stack_apply_ne hu] at hp
    rw [Function.update_of_ne hu]
    exact hk u d cancel p hp

theorem step_tallied {i : T × Act τ} (hs : step i s = some s') (h : Safe s) (hk : Tallied s k) :
    Tallied s' (tally i s s' k) := by
  obtain ⟨-, ⟨c, hc, hnil, rfl⟩ | ⟨ch, f, rest, e, hi, hst, he, rfl⟩ | ⟨hi, rfl⟩ |
    ⟨x, hi, -, rfl⟩⟩ := step_cases hs
  · intro u d cancel p hp
    simp only [tally, hc]
    by_cases hu : u = i.1
    · subst hu
      rw [State.setStack_stack_self, List.mem_singleton] at hp
      rw [Function.update_self]
      cases c with
      | semWaitWithCancel d' cancel' =>
        cases hp
        rfl
      | _ => cases hp
    · rw [State.setStack_stack_of_ne _ _ hu] at hp
      rw [Function.update_of_ne hu]
      exact hk u d cancel p hp
  · exact hk.apply h hi hst he
  · simp only [tally, hi]
    exact hk
  · simp only [tally, hi]
    exact hk

/-! ## The result -/

/-- What the result `o` of `nsync_sem_wait_with_cancel_` says to the thread `t`, which has
taken `taken` tokens in the call.  The wait on the semaphore, if there was one, ended with
`slept`. -/
structure SemTruthful (s : State T τ) (t : T) (d : τ) (cancel : Option ℕ) (o : SemOutcome)
    (slept : Option SemOutcome) (taken : ℕ) : Prop where
  token : taken = if o = .ok then 1 else 0
  timedOut : o = .timedOut → d ≤ s.now ∧ ∀ c, cancel = some c → d < (s.note c).expiry
  cancelled : o = .cancelled → ∃ c, cancel = some c ∧ s.Ready (.note c)
  equal : slept = some .timedOut → ∀ c, cancel = some c → (s.note c).expiry = d →
    o = .cancelled ∧ s.Ready (.note c)
  gone : ∀ nw < s.nws, (s.nw nw).sem = some t → ∀ s', Reach step Legal s s' → Untouched s' nw

theorem reach_tallied {value : ℕ → Word} {sem : T → ℕ} {now : τ}
    (h : Reach (withHistory step tally) (fun i p => Legal i p.1)
      (initial value sem now, fun _ => 0) (s, k)) : Tallied s k := by
  have hboth : Safe s ∧ Tallied s k := by
    refine h.invariant (I := fun p => Safe p.1 ∧ Tallied p.1 p.2) ?_ ?_
    · exact ⟨safe_initial value sem now, fun _ _ _ _ hp => absurd hp List.not_mem_nil⟩
    · intro i p q _ hp hl hs
      obtain ⟨s', hs', rfl⟩ := Option.map_eq_some_iff.mp hs
      exact ⟨step_safe hs' hl hp.1, step_tallied hs' hp.1 hp.2⟩
  exact hboth.2

/-- What `nsync_sem_wait_with_cancel_` is about to return is true, whatever the other
threads do. -/
theorem semWait_returns_truthfully {value : ℕ → Word} {sem : T → ℕ} {now : τ} (htop : (0 : τ) < ⊤)
    {o : SemOutcome} {slept : Option SemOutcome}
    (h : Reach (withHistory step tally) (fun i p => Legal i p.1)
      (initial value sem now, fun _ => 0) (s, k))
    (hst : s.stack t = .semWait d cancel (.result o slept) :: rest) :
    SemTruthful s t d cancel o slept (k t) := by
  have hreach : Reach step Legal (initial value sem now) s := Reach.forget_history h
  have hsafe := reach_safe hreach
  have hf : .semWait d cancel (.result o slept) ∈ s.stack t := hst ▸ List.mem_cons_self
  have hsound := (reach_informed hreach htop).sound t _ hf
  have hnil : rest = [] := (hst ▸ hsafe.locks.stack.stack t : StackOk (_ :: rest)).client rfl
  have htaken : k t = if o = .ok then 1 else 0 := by
    rw [reach_tallied h t d cancel _ hf]
    cases o <;> rfl
  have hgone : ∀ nw < s.nws, (s.nw nw).sem = some t →
      ∀ s', Reach step Legal s s' → Untouched s' nw := by
    intro nw hnw hsem s' hs'
    have hrec : recordsBy (s.stack t) = [] := by
      rw [hst, hnil]
      cases cancel <;> rfl
    refine ((hsafe.gone hrec hnw hsem).reach hsafe hs').untouched ?_
    exact reach_safe (hreach.trans hs')
  cases cancel with
  | none =>
    rcases hsound with ⟨rfl, rfl⟩ | ⟨rfl, rfl, hd⟩
    · exact ⟨htaken, nofun, nofun, nofun, hgone⟩
    · refine ⟨htaken, fun _ => ⟨hd, nofun⟩, nofun,
        fun _ => nofun, hgone⟩
  | some c =>
    rcases hsound with ⟨rfl, rfl, hr⟩ | ⟨y, rfl, hended⟩
    · exact ⟨htaken, nofun, fun _ => ⟨c, rfl, hr⟩, nofun, hgone⟩
    · cases hended with
      | ok =>
        exact ⟨htaken, nofun, nofun, nofun, hgone⟩
      | timedOut hd hc =>
        refine ⟨htaken, fun _ => ⟨hd, fun c' hc' => ?_⟩, nofun,
          fun _ c' hc' heq => ?_, hgone⟩
        · cases hc'
          exact hc
        · cases hc'
          exact absurd heq hc.ne'
      | cancelled hc hr =>
        refine ⟨htaken, nofun, fun _ => ⟨c, rfl, hr⟩, fun _ c' hc' _ => ?_, hgone⟩
        cases hc'
        exact ⟨rfl, hr⟩

end

/-- A thread waits with the deadline at which its note expires. -/
def expiredRun : List (Bool × Act (WithTop ℕ)) :=
  (true, .call (.noteNew none 3)) :: List.replicate 11 (true, .step .run) ++
    (false, .call (.semWaitWithCancel 3 (some 0))) :: List.replicate 11 (false, .step .run) ++
    [(true, .tick 3), (false, .step .fail)] ++ List.replicate 28 (false, .step .run)

theorem semWait_returns_truthfully_expired :
    ∃ (s : State Bool (WithTop ℕ)) (k : Bool → ℕ),
      Reach (withHistory step tally) (fun i p => Legal i p.1)
        (initial (fun _ => 1#32) (fun _ => 0) 0, fun _ => 0) (s, k) ∧
      s.stack false = [.semWait 3 (some 0) (.result .cancelled (some .timedOut))] ∧
      SemTruthful s false 3 (some 0) .cancelled (some .timedOut) (k false) := by
  have hrun : ((exec (withHistory step tally) (fun i p => legalCheck i p.1) expiredRun
      (initial (fun _ => 1#32) (fun _ : Bool => 0) (0 : WithTop ℕ), fun _ => 0)).map fun p =>
        decide (p.1.stack false = [.semWait 3 (some 0) (.result .cancelled (some .timedOut))])) =
      some true := by
    decide +kernel
  have hcheck : ∀ (i : Bool × Act (WithTop ℕ)) (p : State Bool (WithTop ℕ) × (Bool → ℕ)),
      legalCheck i p.1 = true → Legal i p.1 := fun i p => legal_of_check i p.1
  obtain ⟨⟨s, k⟩, hs, hf⟩ := Reach.exists_of_exec hcheck hrun
  have hst : s.stack false = [.semWait 3 (some 0) (.result .cancelled (some .timedOut))] :=
    of_decide_eq_true hf
  have htop : (0 : WithTop ℕ) < ⊤ := by decide
  exact ⟨s, k, hs, hst, semWait_returns_truthfully htop hs hst⟩

end Nsync.Wait
