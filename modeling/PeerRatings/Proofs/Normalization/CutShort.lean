/-
# A pass that is cut short

A normalizer may refuse at any call, and the pass ends there.  Two things have to be said of such
a pass: **which calls were made**, and **what it leaves**.

For the first, a collaborator is watched: every call is written down together with the refusal it
ended in, if it did.  `UpToRefusal` relates the calls that were made to the calls that were due.
They are the same, one by one, up to the first that was refused, and nothing was asked after it.
The relation follows the run, so runs are put together as their relations are (`append`, `stop`).

For the second, the split of a pass into calls and writes (`Normalizer.normalizeNeighbors_eq`)
holds for a pass that is cut short as well.  The answers are then fewer than the handles, so the
writes reach a prefix of them and nothing else (`NormalizedUpTo`).
-/
import PeerRatings.Proofs.Normalization.OncePerVector

namespace PeerRatings

variable {σ τ α β : Type}

/-! ## 1. Calls with their endings -/

/-- A call to a collaborator, and the refusal it ended in, if it did. -/
structure EndedCall (α : Type) where
  asked : JournalEntry α
  refusal? : Option RequestError

/-- The collaborators' own state, and the calls that have ended so far, the earliest first. -/
abbrev Observed (σ α : Type) := σ × List (EndedCall α)

/-- The refusal that an outcome is, if it is one. -/
def refusalOf : Except RequestError β → Option RequestError
  | .ok _ => none
  | .error e => some e

theorem refusalOf_eq_some_iff {outcome : Except RequestError β} {e : RequestError} :
    refusalOf outcome = some e ↔ outcome = .error e := by
  cases outcome <;> simp [refusalOf]

/-- Make a call, and write down how it ended. -/
def observe (entry : JournalEntry α) (refusal? : β → Option RequestError) (call : StateM σ β) :
    StateM (Observed σ α) β :=
  fun s =>
    let answer := call s.1
    (answer.1, (answer.2, s.2 ++ [⟨entry, refusal? answer.1⟩]))

/-- The normalizer whose calls are written down with their endings. -/
def Normalizer.observed (nz : Normalizer σ τ α) : Normalizer (Observed σ α) τ α where
  normalize user v :=
    observe (.normalize user v) (fun answer => refusalOf answer.1) (nz.normalize user v)
  transformation user v :=
    observe (.transform user v) refusalOf (nz.transformation user v)

theorem Normalizer.normalize_observed {nz : Normalizer σ τ α} {user : Int} {v v' : RatingVector α}
    {outcome : Except RequestError Unit} {s s' : σ} (log : List (EndedCall α))
    (h : nz.normalize user v s = ((outcome, v'), s')) :
    nz.observed.normalize user v (s, log) =
      ((outcome, v'), (s', log ++ [⟨.normalize user v, refusalOf outcome⟩])) := by
  simp only [observed, observe, h]

/-! ## 2. Calls made and calls due -/

/-- The calls made are the calls due, one by one, up to the first that was refused; the refusal is
that of the last call made. -/
inductive UpToRefusal : List (EndedCall α) → List (JournalEntry α) → Option RequestError → Prop
  /-- Nothing was due. -/
  | done : UpToRefusal [] [] none
  /-- The first call due was refused, and the later ones were not made. -/
  | refused (entry : JournalEntry α) (later : List (JournalEntry α)) (e : RequestError) :
      UpToRefusal [⟨entry, some e⟩] (entry :: later) (some e)
  /-- The first call due was granted, and the others followed. -/
  | granted {made : List (EndedCall α)} {due : List (JournalEntry α)}
      {refusal? : Option RequestError} (entry : JournalEntry α)
      (h : UpToRefusal made due refusal?) :
      UpToRefusal (⟨entry, none⟩ :: made) (entry :: due) refusal?

namespace UpToRefusal

variable {made made' : List (EndedCall α)} {due due' : List (JournalEntry α)}
  {refusal? : Option RequestError}

/-- One call. -/
theorem single (entry : JournalEntry α) (refusal? : Option RequestError) :
    UpToRefusal [⟨entry, refusal?⟩] [entry] refusal? := by
  cases refusal? with
  | none => exact .granted entry .done
  | some e => exact .refused entry [] e

/-- Calls that were all granted go before other calls. -/
theorem append (h : UpToRefusal made due none) (h' : UpToRefusal made' due' refusal?) :
    UpToRefusal (made ++ made') (due ++ due') refusal? := by
  generalize hnone : (none : Option RequestError) = r at h
  induction h with
  | done => exact h'
  | refused entry later e => cases hnone
  | granted entry _ ih => exact .granted entry (ih hnone)

/-- After a refusal more may be due, and nothing more is made. -/
theorem stop {e : RequestError} (h : UpToRefusal made due (some e))
    (due' : List (JournalEntry α)) : UpToRefusal made (due ++ due') (some e) := by
  generalize hsome : some e = r at h
  induction h with
  | done => cases hsome
  | refused entry later e' => exact .refused entry (later ++ due') e'
  | granted entry _ ih => exact .granted entry (ih hsome)

/-- Calls that were all granted are the calls due. -/
theorem eq_of_granted (h : UpToRefusal made due none) :
    made = due.map fun entry => ⟨entry, none⟩ := by
  generalize hnone : (none : Option RequestError) = r at h
  induction h with
  | done => rfl
  | refused entry later e => cases hnone
  | granted entry _ ih =>
    obtain rfl := hnone
    rw [List.map_cons, ← ih rfl]

/-- The calls made are the first of those due. -/
theorem asked_prefix (h : UpToRefusal made due refusal?) : made.map EndedCall.asked <+: due := by
  induction h with
  | done => exact List.prefix_rfl
  | refused entry later e => exact ⟨later, rfl⟩
  | granted entry _ ih => exact (List.prefix_cons_inj entry).mpr ih

/-- **It ends in a refusal exactly when a call was refused**, and in that one. -/
theorem eq_some_iff (h : UpToRefusal made due refusal?) (e : RequestError) :
    refusal? = some e ↔ ∃ call ∈ made, call.refusal? = some e := by
  induction h with
  | done => simp
  | refused entry later e' => simp
  | granted entry _ ih => simp [ih]

/-- **Nothing is asked after a refusal**: every call but the last was granted. -/
theorem granted_before_last (h : UpToRefusal made due refusal?) :
    ∀ call ∈ made.dropLast, call.refusal? = none := by
  induction h with
  | done => simp
  | refused entry later e => simp
  | @granted made due r entry _ ih =>
    intro call hcall
    cases made with
    | nil => simp at hcall
    | cons next rest =>
      rcases List.mem_cons.mp hcall with rfl | hcall
      · rfl
      · exact ih call hcall

end UpToRefusal

/-! ## 3. A run of calls, watched -/

namespace Normalizer

/-- **A run of calls makes the calls up to the first refusal**, and being watched changes
nothing about it. -/
theorem callEach_observed (nz : Normalizer σ τ α) (calls : List (Int × RatingVector α)) (s : σ)
    (log : List (EndedCall α)) :
    ∃ made, nz.observed.callEach calls (s, log) =
        ((nz.callEach calls s).1, ((nz.callEach calls s).2, log ++ made)) ∧
      UpToRefusal made (calls.map fun call => .normalize call.1 call.2)
        (refusalOf (nz.callEach calls s).1.1) := by
  induction calls generalizing s log with
  | nil => exact ⟨[], by simp [callEach], .done⟩
  | cons call rest ih =>
    obtain ⟨⟨outcome, v⟩, s', hcall⟩ : ∃ a s', nz.normalize call.1 call.2 s = (a, s') := ⟨_, _, rfl⟩
    have hwatched := normalize_observed log hcall
    cases outcome with
    | error e =>
      refine ⟨[⟨.normalize call.1 call.2, some e⟩], ?_, ?_⟩
      · rw [callEach_cons_error call rest hcall, callEach_cons_error call rest hwatched]
        rfl
      · rw [callEach_cons_error call rest hcall, List.map_cons]
        exact .refused _ _ e
    | ok _ =>
      obtain ⟨made, hrun, hmade⟩ := ih s' (log ++ [⟨.normalize call.1 call.2, none⟩])
      refine ⟨⟨.normalize call.1 call.2, none⟩ :: made, ?_, ?_⟩
      · rw [callEach_cons_ok call rest hcall, callEach_cons_ok call rest hwatched]
        simp only [refusalOf, hrun, List.append_assoc, List.singleton_append]
      · rw [callEach_cons_ok call rest hcall, List.map_cons]
        exact .granted _ hmade

/-- A run whose calls are granted up to one that is refused. -/
theorem callEach_append_refused {nz : Normalizer σ τ α} {before after : List (Int × RatingVector α)}
    {call : Int × RatingVector α} {left : List (RatingVector α)} {v : RatingVector α}
    {e : RequestError} {s s₁ s₂ : σ} (hbefore : nz.callEach before s = ((.ok (), left), s₁))
    (hcall : nz.normalize call.1 call.2 s₁ = ((.error e, v), s₂)) :
    nz.callEach (before ++ call :: after) s = ((.error e, left ++ [v]), s₂) := by
  induction before generalizing s left with
  | nil =>
    obtain ⟨hleft, rfl⟩ := Prod.mk.inj hbefore
    obtain ⟨-, rfl⟩ := Prod.mk.inj hleft
    exact callEach_cons_error call after hcall
  | cons first rest ih =>
    obtain ⟨⟨outcome, w⟩, s', hfirst⟩ : ∃ a s', nz.normalize first.1 first.2 s = (a, s') :=
      ⟨_, _, rfl⟩
    cases outcome with
    | error e' =>
      rw [callEach_cons_error first rest hfirst] at hbefore
      exact absurd (congrArg (fun run => run.1.1) hbefore) (by simp)
    | ok _ =>
      rw [callEach_cons_ok first rest hfirst] at hbefore
      obtain ⟨hanswer, hstate⟩ := Prod.mk.inj hbefore
      obtain ⟨hok, hleft⟩ := Prod.mk.inj hanswer
      have hrest : nz.callEach rest s' = ((.ok (), (nz.callEach rest s').1.2), s₁) :=
        Prod.ext (Prod.ext hok rfl) hstate
      rw [List.cons_append, callEach_cons_ok first (rest ++ call :: after) hfirst, ih hrest, ← hleft]
      rfl

end Normalizer

/-! ## 4. What a pass leaves that was cut short -/

namespace Neighborhoods

/-- What a pass leaves of `N` that got `answers`: they stand in the places of the handles met
first, and everything else is as it was. -/
structure NormalizedUpTo (N N' : Neighborhoods α) (answers : List (RatingVector α)) : Prop where
  reached : (N.handlesMet.take answers.length).map N'.vector? = answers.map some
  untouched : ∀ handle, handle ∉ N.handlesMet.take answers.length →
    N'.vector? handle = N.vector? handle
  entries : ∀ item, N'.neighbors item = N.neighbors item
  items : N'.items = N.items
  count : N'.vectorCount = N.vectorCount

theorem normalizedUpTo_putEach (N : Neighborhoods α) {answers : List (RatingVector α)}
    (hlen : answers.length ≤ N.handlesMet.length) :
    NormalizedUpTo N (N.putEach (N.handlesMet.zip answers)) answers := by
  have hzip : N.handlesMet.zip answers = (N.handlesMet.take answers.length).zip answers := by
    rw [List.zip_eq_zip_take_min, Nat.min_eq_right hlen, List.take_length]
  have htake : (N.handlesMet.take answers.length).length = answers.length := by
    rw [List.length_take, Nat.min_eq_left hlen]
  rw [hzip]
  refine ⟨map_vector?_putEach (N.nodup_handlesMet.sublist (List.take_sublist _ _)) ?_ htake,
    ?_, ?_, ?_, ?_⟩
  · intro handle hmem
    exact isSome_vector?_of_met (List.mem_of_mem_take hmem)
  · intro handle h
    refine vector?_putEach_of_not_mem ?_
    rw [List.map_fst_zip (Nat.le_of_eq htake)]
    exact h
  · intro item
    rw [neighbors, neighbors, byItem_putEach]
  · rw [Neighborhoods.items, Neighborhoods.items, byItem_putEach]
  · exact vectorCount_putEach N _

end Neighborhoods

/-- **A pass that is refused at one call** has made the calls before it, all granted, and that
one.  Their answers stand in the places of the handles met first, the last of them being what the
refused call left; nothing else is changed, and the refusal is the outcome. -/
theorem Normalizer.normalizeNeighbors_refused {nz : Normalizer σ τ α} {N : Neighborhoods α}
    {before after : List (Int × RatingVector α)} {user : Int} {v v' : RatingVector α}
    {left : List (RatingVector α)} {e : RequestError} {s s₁ s₂ : σ} (log : List (EndedCall α))
    (hcalls : N.firstCalls = before ++ (user, v) :: after)
    (hbefore : nz.callEach before s = ((.ok (), left), s₁))
    (hcall : nz.normalize user v s₁ = ((.error e, v'), s₂)) :
    ∃ N', nz.observed.normalizeNeighbors N (s, log) = ((.error e, N'), (s₂, log ++
        before.map (fun call => ⟨.normalize call.1 call.2, none⟩) ++
          [⟨.normalize user v, some e⟩])) ∧
      N.NormalizedUpTo N' (left ++ [v']) ∧ left.length = before.length := by
  have hleft : left.length = before.length := by
    have hok : (nz.callEach before s).1.1 = .ok () := by rw [hbefore]
    have hlength := length_callEach hok
    rwa [hbefore] at hlength
  have hlen : (left ++ [v']).length ≤ N.handlesMet.length := by
    rw [← N.length_firstCalls, hcalls]
    simp only [List.length_append, List.length_cons, List.length_nil]
    omega
  obtain ⟨made, hwatched, hmade⟩ := nz.callEach_observed before s log
  rw [hbefore] at hwatched hmade
  obtain rfl := hmade.eq_of_granted
  have hgranted : nz.observed.callEach before (s, log) = ((.ok (), left), (s₁,
      log ++ before.map fun call => ⟨.normalize call.1 call.2, none⟩)) := by
    rw [hwatched, List.map_map]
    rfl
  have hrun : nz.observed.callEach N.firstCalls (s, log) = ((.error e, left ++ [v']), (s₂,
      log ++ before.map (fun call => ⟨.normalize call.1 call.2, none⟩) ++
        [⟨.normalize user v, some e⟩])) := by
    rw [hcalls]
    exact callEach_append_refused hgranted (normalize_observed _ hcall)
  refine ⟨_, ?_, N.normalizedUpTo_putEach hlen, hleft⟩
  rw [normalizeNeighbors_eq, hrun]
  rfl

end PeerRatings
