/-
# Who can make a prediction fail

On its way a prediction looks up a vector for every handle it meets, makes a blank vector over the
items asked for, and writes a score for each of them.  Each of these steps has a refusal of its
own: a handle may name nothing, keys may be out of order.  `Predictor.predictChecked` makes all
these checks and hands their refusals on.  **It is the same prediction**
(`Predictor.predictChecked_eq`), because neighborhoods carry the proof that their handles resolve,
and a set of items lists its members in order.

So only collaborators can make a prediction fail, and `Predictor.predict_observed` says when and
how: the calls are made in the order find, normalize once per handle met, transform; the first
refusal is the outcome, unchanged; and nobody is asked after it.  What a pass leaves that was cut
short is said by `Normalizer.normalizeNeighbors_refused`, and `Predictor.predict_refused_iff` is
all of this together.
-/
import PeerRatings.Proofs.Normalization.CutShort
import PeerRatings.Proofs.Prediction.Scores

namespace PeerRatings

variable {σ τ α : Type}

/-! ## 1. Votes with every check made -/

section Votes

variable [Arithmetic α]

namespace Neighborhoods

/-- Look a neighbor's rating up and add its vote to the two sums, that of the votes and that of
the weights. -/
def countVote (N : Neighborhoods α) (item : Int) (sums : α × α) (n : Neighbor α) :
    Except RequestError (α × α) :=
  match N.vector n.ratings with
  | .error e => .error e
  | .ok v =>
    let r := RatingVector.get v item
    if Arithmetic.isAbsent r then .ok sums
    else .ok (sums.1 + n.similarity * r, sums.2 + Arithmetic.abs n.similarity)

/-- The score of an item, refused if a neighbor's vector is not there. -/
def score? (N : Neighborhoods α) (item : Int) : Except RequestError α := do
  let sums ← (N.neighbors item).foldlM (N.countVote item) (Arithmetic.zero, Arithmetic.zero)
  if Arithmetic.numLt Arithmetic.zero sums.2 then pure (sums.1 / sums.2)
  else pure Arithmetic.absent

/-- Write the score of an item into a vector. -/
def writeScore (N : Neighborhoods α) (scored : RatingVector α) (item : Int) :
    Except RequestError (RatingVector α) := do
  let x ← N.score? item
  pure (scored.set item x).2

/-- The scores of items, written one after the other into a vector that is blank at first. -/
def scores? (N : Neighborhoods α) (items : List Int) : Except RequestError (RatingVector α) := do
  let blank ← RatingVector.blank? items
  items.foldlM N.writeScore blank

/-- A vote whose vector is there is counted. -/
theorem countVote_eq {N : Neighborhoods α} {item : Int} {n : Neighbor α}
    (h : n ∈ N.neighbors item) (sums : α × α) :
    N.countVote item sums n = .ok
      (if Arithmetic.isAbsent (N.rating n.ratings item) then sums.1
        else sums.1 + n.similarity * N.rating n.ratings item,
      if Arithmetic.isAbsent (N.rating n.ratings item) then sums.2
        else sums.2 + Arithmetic.abs n.similarity) := by
  obtain ⟨v, hv⟩ := N.exists_vector h
  have hrating : N.rating n.ratings item = RatingVector.get v item := by
    rw [rating, hv]
    rfl
  rw [countVote, vector, hv, hrating]
  by_cases habsent : Arithmetic.isAbsent (RatingVector.get v item) <;> simp [habsent]

theorem foldlM_countVote {N : Neighborhoods α} {item : Int} {ns : List (Neighbor α)}
    (h : ∀ n ∈ ns, n ∈ N.neighbors item) (sums : α × α) :
    ns.foldlM (N.countVote item) sums = .ok
      (ns.foldl (fun sum n => if Arithmetic.isAbsent (N.rating n.ratings item) then sum
        else sum + n.similarity * N.rating n.ratings item) sums.1,
      ns.foldl (fun weight n => if Arithmetic.isAbsent (N.rating n.ratings item) then weight
        else weight + Arithmetic.abs n.similarity) sums.2) := by
  induction ns generalizing sums with
  | nil => rfl
  | cons n rest ih =>
    rw [List.foldlM_cons, countVote_eq (h n List.mem_cons_self)]
    exact ih (fun m hm => h m (List.mem_cons_of_mem _ hm)) _

/-- **Every vote can be counted.** -/
theorem score?_eq (N : Neighborhoods α) (item : Int) : N.score? item = .ok (N.score item) := by
  rw [score?, foldlM_countVote fun _ hn => hn, score_eq_meanVote]
  simp only [bind, Except.bind, meanVote, voteWeight, voteSum]
  split <;> rfl

theorem foldlM_writeScore (N : Neighborhoods α) (items : List Int) (scored : RatingVector α) :
    ∃ scored', items.foldlM N.writeScore scored = .ok scored' ∧ ∀ key, scored'.get? key =
      if key ∈ items then (scored.get? key).map fun _ => N.score key else scored.get? key := by
  induction items generalizing scored with
  | nil => exact ⟨scored, rfl, fun key => by simp⟩
  | cons item rest ih =>
    obtain ⟨scored', hrun, hget⟩ := ih (scored.set item (N.score item)).2
    refine ⟨scored', ?_, fun key => ?_⟩
    · rw [List.foldlM_cons, writeScore, score?_eq]
      exact hrun
    · rw [hget, RatingVector.get?_set]
      by_cases hkey : key = item
      · subst hkey
        cases scored.get? key <;> simp
      · simp [hkey]

end Neighborhoods

theorem zip_replicate_map_fst {β γ : Type} (entries : List (Int × β)) (c : γ) :
    (entries.map Prod.fst).zip (List.replicate entries.length c) =
      entries.map fun e => (e.1, c) := by
  induction entries with
  | nil => rfl
  | cons e rest ih => simp [List.replicate_succ, ih]

/-- The blank vector over the members of a set is not refused. -/
theorem RatingVector.blank?_eq (items : ItemSet) :
    ∃ blank : RatingVector α, RatingVector.blank? items.keys = .ok blank ∧
      ∀ key, blank.get? key = (items.get? key).map fun _ => Arithmetic.absent := by
  have hascending : isAscending items.keys = true := isAscending_iff.mpr items.keys_ascending
  have hzip : items.keys.zip (List.replicate items.keys.length (Arithmetic.absent : α)) =
      items.entries.map fun e => (e.1, Arithmetic.absent) := by
    rw [IdMap.keys, List.length_map]
    exact zip_replicate_map_fst _ _
  refine ⟨items.mapEntries fun _ _ => Arithmetic.absent, ?_, fun key => IdMap.get?_mapEntries ..⟩
  rw [blank?, ofColumns?, dif_pos (by simp), dif_pos hascending]
  simp only [IdMap.mapEntries, hzip]

/-- **Scores can be written for every set of items**: its members are in order, so a blank vector
over them is not refused, and every score finds its place. -/
theorem Neighborhoods.scores?_eq (N : Neighborhoods α) (items : ItemSet) :
    N.scores? items.keys = .ok (N.scores items) := by
  obtain ⟨blank, hblank, hget⟩ := RatingVector.blank?_eq (α := α) items
  obtain ⟨scored, hrun, hscored⟩ := N.foldlM_writeScore items.keys blank
  have heq : scored = N.scores items := by
    refine IdMap.ext_get? fun key => ?_
    rw [hscored, hget, get?_scores]
    by_cases hkey : key ∈ items.keys
    · rw [if_pos hkey, Option.map_map]
      rfl
    · rw [if_neg hkey, IdMap.get?_of_not_mem hkey]
      rfl
  rw [scores?, hblank]
  exact hrun.trans (congrArg Except.ok heq)

end Votes

/-! ## 2. A prediction with every check made -/

namespace Predictor

/-- Predict, and hand on the refusal of every look-up and of every check on the way. -/
def predictChecked [Arithmetic α] [Transformation τ α] (p : Predictor σ τ α) (user : Int)
    (ratings : RatingVector α) (items? : Option (List Int)) : CallM σ (RatingVector α) := do
  let requested := items?.map ItemSet.ofList
  let found ← p.finder.find user ratings requested
  let normalized ← p.normalizer.normalized found
  let scores ← CallM.ofExcept (normalized.scores? (requested.getD found.items).keys)
  let transformation ← p.normalizer.transformation user ratings
  pure (Transformation.unapply transformation scores)

/-- **No check on the way is ever refused.** -/
theorem predictChecked_eq [Arithmetic α] [Transformation τ α] (p : Predictor σ τ α) (user : Int)
    (ratings : RatingVector α) (items? : Option (List Int)) :
    p.predictChecked user ratings items? = p.predict user ratings items? := by
  have hlift : ∀ scores : RatingVector α,
      (CallM.ofExcept (.ok scores) : CallM σ (RatingVector α)) = pure scores := fun _ => rfl
  simp only [predictChecked, predict, Neighborhoods.scores?_eq, hlift, pure_bind]

/-! ## 3. How a prediction ends -/

section Stages

variable [Arithmetic α] [Transformation τ α] {p : Predictor σ τ α} {user : Int}
  {ratings : RatingVector α} {items? : Option (List Int)} {N : Neighborhoods α}
  {answers : List (RatingVector α)} {s s₁ s₂ : σ}

theorem predict_of_find_refused {e : RequestError}
    (hfind : (p.finder.find user ratings (items?.map ItemSet.ofList)).runFrom s = (.error e, s₁)) :
    (p.predict user ratings items?).runFrom s = (.error e, s₁) := by
  simp only [predict, CallM.runFrom_bind, hfind]

theorem predict_of_normalize_refused {e : RequestError}
    (hfind : (p.finder.find user ratings (items?.map ItemSet.ofList)).runFrom s = (.ok N, s₁))
    (hcalls : p.normalizer.callEach N.firstCalls s₁ = ((.error e, answers), s₂)) :
    (p.predict user ratings items?).runFrom s = (.error e, s₂) := by
  have hrun : (p.normalizer.normalized N).runFrom s₁ = (.error e, s₂) := by
    rw [Normalizer.runFrom_normalized, hcalls]
    rfl
  simp only [predict, CallM.runFrom_bind, hfind, hrun]

/-- Once the pass is through, the transformation decides how the prediction ends. -/
theorem predict_of_normalized
    (hfind : (p.finder.find user ratings (items?.map ItemSet.ofList)).runFrom s = (.ok N, s₁))
    (hcalls : p.normalizer.callEach N.firstCalls s₁ = ((.ok (), answers), s₂)) :
    (p.predict user ratings items?).runFrom s =
      (((p.normalizer.transformation user ratings).runFrom s₂).1.map fun t =>
        Transformation.unapply t
          ((N.putEach (N.handlesMet.zip answers)).scores (N.scope items?)),
        ((p.normalizer.transformation user ratings).runFrom s₂).2) := by
  have hrun : (p.normalizer.normalized N).runFrom s₁ =
      (.ok (N.putEach (N.handlesMet.zip answers)), s₂) := by
    rw [Normalizer.runFrom_normalized, hcalls]
    rfl
  simp only [predict, CallM.runFrom_bind, hfind, hrun]
  obtain ⟨outcome, s₃⟩ := (p.normalizer.transformation user ratings).runFrom s₂
  cases outcome <;> rfl

end Stages

/-! ## 4. Only collaborators make a prediction fail -/

end Predictor

/-- The finder whose calls are written down with their endings. -/
def Finder.observed (f : Finder σ α) : Finder (Observed σ α) α where
  find user ratings scope :=
    observe (.find user ratings scope) refusalOf (f.find user ratings scope)

theorem Finder.find_observed {f : Finder σ α} {user : Int} {ratings : RatingVector α}
    {scope : Option ItemSet} {outcome : Except RequestError (Neighborhoods α)} {s s' : σ}
    (log : List (EndedCall α)) (h : (f.find user ratings scope).runFrom s = (outcome, s')) :
    (f.observed.find user ratings scope).runFrom (s, log) =
      (outcome, (s', log ++ [⟨.find user ratings scope, refusalOf outcome⟩])) := by
  simp only [CallM.runFrom] at h ⊢
  simp only [observed, observe, h]

theorem Normalizer.transformation_observed {nz : Normalizer σ τ α} {user : Int}
    {ratings : RatingVector α} {outcome : Except RequestError τ} {s s' : σ}
    (log : List (EndedCall α)) (h : (nz.transformation user ratings).runFrom s = (outcome, s')) :
    (nz.observed.transformation user ratings).runFrom (s, log) =
      (outcome, (s', log ++ [⟨.transform user ratings, refusalOf outcome⟩])) := by
  simp only [CallM.runFrom] at h ⊢
  simp only [observed, observe, h]

namespace Predictor

/-- The predictor whose collaborators are watched. -/
def observed (p : Predictor σ τ α) : Predictor (Observed σ α) τ α :=
  ⟨p.finder.observed, p.normalizer.observed⟩

/-- The calls that a prediction owes its collaborators: the finder is asked, and if it answers,
the normalizer is asked once for each handle met, and then for the transformation of the user's
ratings as they are. -/
def callsDue (p : Predictor σ τ α) (user : Int) (ratings : RatingVector α)
    (scope : Option ItemSet) (s : σ) : List (JournalEntry α) :=
  .find user ratings scope ::
    match ((p.finder.find user ratings scope).runFrom s).1 with
    | .error _ => []
    | .ok N => N.firstCalls.map (fun call => .normalize call.1 call.2) ++ [.transform user ratings]

/-- **A prediction makes the calls it owes up to the first refusal**, and that refusal is its
outcome. -/
theorem predict_observed [Arithmetic α] [Transformation τ α] (p : Predictor σ τ α) (user : Int)
    (ratings : RatingVector α) (items? : Option (List Int)) (s : σ) (log : List (EndedCall α)) :
    ∃ made, (p.observed.predict user ratings items?).runFrom (s, log) =
        (((p.predict user ratings items?).runFrom s).1,
          (((p.predict user ratings items?).runFrom s).2, log ++ made)) ∧
      UpToRefusal made (p.callsDue user ratings (items?.map ItemSet.ofList) s)
        (refusalOf ((p.predict user ratings items?).runFrom s).1) := by
  obtain ⟨outcome, s₁, hfind⟩ : ∃ outcome s₁,
      (p.finder.find user ratings (items?.map ItemSet.ofList)).runFrom s = (outcome, s₁) :=
    ⟨_, _, rfl⟩
  have hwatched := Finder.find_observed log hfind
  rw [callsDue, hfind]
  cases outcome with
  | error e =>
    refine ⟨[⟨.find user ratings (items?.map ItemSet.ofList), some e⟩], ?_, ?_⟩
    · rw [predict_of_find_refused hwatched, predict_of_find_refused hfind]
      rfl
    · rw [predict_of_find_refused hfind]
      exact .single _ (some e)
  | ok N =>
    obtain ⟨⟨outcome, answers⟩, s₂, hcalls⟩ :
        ∃ a s₂, p.normalizer.callEach N.firstCalls s₁ = (a, s₂) := ⟨_, _, rfl⟩
    obtain ⟨made, hrun, hmade⟩ := p.normalizer.callEach_observed N.firstCalls s₁
      (log ++ [⟨.find user ratings (items?.map ItemSet.ofList), none⟩])
    rw [hcalls] at hrun hmade
    cases outcome with
    | error e =>
      refine ⟨⟨.find user ratings (items?.map ItemSet.ofList), none⟩ :: made, ?_, ?_⟩
      · rw [predict_of_normalize_refused hwatched hrun, predict_of_normalize_refused hfind hcalls,
          List.append_assoc]
        rfl
      · rw [predict_of_normalize_refused hfind hcalls]
        exact .granted _ (hmade.stop _)
    | ok _ =>
      obtain ⟨outcome, s₃, htransform⟩ : ∃ outcome s₃,
          (p.normalizer.transformation user ratings).runFrom s₂ = (outcome, s₃) := ⟨_, _, rfl⟩
      refine ⟨⟨.find user ratings (items?.map ItemSet.ofList), none⟩ ::
        (made ++ [⟨.transform user ratings, refusalOf outcome⟩]), ?_, ?_⟩
      · rw [predict_of_normalized hwatched hrun, predict_of_normalized hfind hcalls,
          observed, Normalizer.transformation_observed _ htransform, htransform]
        simp only [List.append_assoc, List.cons_append, List.nil_append]
      · rw [predict_of_normalized hfind hcalls, htransform]
        -- mapping a prediction back refuses nothing
        have hlast : ∀ back : τ → RatingVector α,
            refusalOf (outcome.map back) = refusalOf outcome := by
          intro back
          cases outcome <;> rfl
        rw [hlast]
        exact .granted _ (hmade.append (.single _ _))

/-- **Only a collaborator makes a prediction fail.**  The calls made are the calls owed, in their
order and up to the first that is refused.  A prediction fails exactly when a call that it made
was refused, with that refusal, and no call follows it; the checks in between refuse nothing.

A pass that is refused at one call has made the calls before it, each once and all granted.  Their
answers stand in the places of the handles met first, the last of them being what the refused call
left, and nothing else is changed. -/
theorem predict_refused_iff [Arithmetic α] [Transformation τ α] (p : Predictor σ τ α) (user : Int)
    (ratings : RatingVector α) (items? : Option (List Int)) (s : σ) (log : List (EndedCall α)) :
    (∃ made, (p.observed.predict user ratings items?).runFrom (s, log) =
        (((p.predict user ratings items?).runFrom s).1,
          (((p.predict user ratings items?).runFrom s).2, log ++ made)) ∧
      p.predictChecked user ratings items? = p.predict user ratings items? ∧
      made.map EndedCall.asked <+: p.callsDue user ratings (items?.map ItemSet.ofList) s ∧
      UpToRefusal made (p.callsDue user ratings (items?.map ItemSet.ofList) s)
        (refusalOf ((p.predict user ratings items?).runFrom s).1) ∧
      (∀ e, ((p.predict user ratings items?).runFrom s).1 = .error e ↔
        ∃ call ∈ made, call.refusal? = some e) ∧
      ∀ call ∈ made.dropLast, call.refusal? = none) ∧
    ∀ N : Neighborhoods α, N.handlesMet.Nodup ∧
      N.handlesMet.map N.firstCall? = N.firstCalls.map some ∧
      ∀ (before after : List (Int × RatingVector α)) (neighbor : Int) (v v' : RatingVector α)
        (left : List (RatingVector α)) (e : RequestError) (t t₁ t₂ : σ),
        N.firstCalls = before ++ (neighbor, v) :: after →
        p.normalizer.callEach before t = ((.ok (), left), t₁) →
        p.normalizer.normalize neighbor v t₁ = ((.error e, v'), t₂) →
        ∃ N', p.normalizer.observed.normalizeNeighbors N (t, log) = ((.error e, N'), (t₂, log ++
            before.map (fun call => ⟨.normalize call.1 call.2, none⟩) ++
              [⟨.normalize neighbor v, some e⟩])) ∧
          N.NormalizedUpTo N' (left ++ [v']) ∧ left.length = before.length := by
  refine ⟨?_, fun N => ⟨N.nodup_handlesMet, N.map_firstCall?, ?_⟩⟩
  · obtain ⟨made, hrun, hmade⟩ := p.predict_observed user ratings items? s log
    refine ⟨made, hrun, p.predictChecked_eq user ratings items?, hmade.asked_prefix, hmade,
      fun e => ?_, hmade.granted_before_last⟩
    rw [← hmade.eq_some_iff, refusalOf_eq_some_iff]
  · intro before after neighbor v v' left e t t₁ t₂ hcalls hbefore hcall
    exact Normalizer.normalizeNeighbors_refused log hcalls hbefore hcall

end Predictor

/-- Writes zero over every value, and then refuses user 9. -/
def refusingNine : Normalizer Unit (Rescaling Float) Float where
  normalize user v := pure
    (if user = 9 then .error (.collaborator "not for 9") else .ok (), v.mapEntries fun _ _ => 0.0)
  transformation _ _ := pure .identity

/-- User 9 comes second in `sharedAndEqual`: both vectors that were reached are zero, and the one
that nobody points at is as it was. -/
theorem normalizeNeighbors_refused_of_shared :
    ∃ N', refusingNine.observed.normalizeNeighbors sharedAndEqual ((), []) =
        ((.error (.collaborator "not for 9"), N'), ((),
          [⟨.normalize 7 (.ofPairs [(1, 4.0), (2, 3.0)]), none⟩,
            ⟨.normalize 9 (.ofPairs [(1, 4.0), (2, 3.0)]),
              some (.collaborator "not for 9")⟩])) ∧
      [⟨0⟩, ⟨1⟩].map N'.vector? =
        [some (.ofPairs [(1, 0.0), (2, 0.0)]), some (.ofPairs [(1, 0.0), (2, 0.0)])] ∧
      N'.vector? ⟨2⟩ = some (.ofPairs [(1, 5.0)]) := by
  have hmet : sharedAndEqual.handlesMet = [⟨0⟩, ⟨1⟩] := by decide +kernel
  obtain ⟨-, hpass⟩ := Predictor.predict_refused_iff ⟨answering sharedAndEqual, refusingNine⟩ 0
    .empty none () []
  obtain ⟨N', hrun, hleft, -⟩ := (hpass sharedAndEqual).2.2 [(7, .ofPairs [(1, 4.0), (2, 3.0)])] []
    9 (.ofPairs [(1, 4.0), (2, 3.0)]) (.ofPairs [(1, 0.0), (2, 0.0)])
    [.ofPairs [(1, 0.0), (2, 0.0)]] (.collaborator "not for 9") () () ()
    (by decide +kernel) rfl rfl
  refine ⟨N', hrun, ?_, ?_⟩
  · have hreached := hleft.reached
    rwa [hmet] at hreached
  · rw [hleft.untouched ⟨2⟩ (by rw [hmet]; decide)]
    decide +kernel

end PeerRatings
