/-
# Only eligible neighbors have influence

The static finder holds the ratings and the similarities of everybody, and what it answers for one
user is made from a small part of that: the user's **candidates** (`IsCandidate`), who are other
users in the user's row of similarities, similar enough, with a row of ratings.  Two finders with
the same candidates for a user and the same limit answer alike, down to the handles, whatever else
they hold: rows of other users, the user's own ratings, a similarity of the user to themself,
similarities that fall short of the least one, recorded users without ratings.

The argument has one idea.  The tables are read in one place, and what is read there is a list
that ascends by user, so its members determine it (`candidates_eq_of_iff`).  Everything after that
works on the list and the limit (`search_congr`), and a predictor sees of its finder only the
answer to its one question (`predict_congr_finder`).

The normalizer is not restricted.  It may keep a state and may refuse, since both runs make the
same calls in the same states.
-/
import PeerRatings.Proofs.Prediction.ItemIndependence
import PeerRatings.Proofs.StaticFinder.Choice

namespace PeerRatings

variable {σ τ α : Type}

/-! ## 1. The finder reads candidates and a limit -/

namespace StaticFinder

variable {f g : StaticFinder} {user : Int}

/-- **Candidates come in one order**, so two finders with the same ones list them alike. -/
theorem candidates_eq_of_iff (h : ∀ c, f.IsCandidate user c ↔ g.IsCandidate user c) :
    f.candidates user = g.candidates user := by
  have hasymm : Std.Asymm fun a b : Candidate => a.user < b.user :=
    ⟨fun _ _ hab hba => Int.lt_asymm hab hba⟩
  refine List.Pairwise.eq_of_mem_iff (candidates_ascending f user) (candidates_ascending g user) ?_
  intro c
  rw [mem_candidates_iff, mem_candidates_iff]
  exact h c

theorem search_congr (hlimit : f.maxNeighbors = g.maxNeighbors)
    (hcandidates : f.candidates user = g.candidates user) (scope : Option ItemSet) :
    f.search user scope = g.search user scope := by
  have hchoose : f.eligible (f.candidates user) = g.eligible (g.candidates user) := by
    funext item
    rw [eligible, eligible, hlimit, hcandidates]
  rw [search, search, hchoose, hcandidates]

end StaticFinder

/-! ## 2. A predictor sees its finder's answer -/

namespace Predictor

section Congruence

variable [Transformation τ Float] {first second : Finder σ Float} {user : Int}
  {ratings : RatingVector Float}

theorem predict_congr_finder (nz : Normalizer σ τ Float)
    (h : ∀ scope, first.find user ratings scope = second.find user ratings scope)
    (items? : Option (List Int)) :
    Predictor.predict ⟨first, nz⟩ user ratings items? =
      Predictor.predict ⟨second, nz⟩ user ratings items? := by
  rw [predict, predict]
  simp only [h]

theorem recommend_congr_finder (nz : Normalizer σ τ Float)
    (h : ∀ scope, first.find user ratings scope = second.find user ratings scope)
    (candidates : List Int) (n : Nat) :
    Predictor.recommend ⟨first, nz⟩ user ratings candidates n =
      Predictor.recommend ⟨second, nz⟩ user ratings candidates n := by
  rw [recommend, recommend, predict_congr_finder nz h]

end Congruence

/-! ## 3. Two finders with the same candidates -/

/-- **Nobody but the candidates has influence.**  Let two finders have the same limit and the same
candidates for a user.  Then both answer every request of that user, with one and the same
neighborhoods, and with either of them predictions and recommendations end alike: with the same
result or the same refusal, and with the normalizer in the same state. -/
theorem static_eq_of_candidates [Transformation τ Float] {f g : StaticFinder} {user : Int}
    (hlimit : f.maxNeighbors = g.maxNeighbors)
    (hsame : ∀ c, f.IsCandidate user c ↔ g.IsCandidate user c) (nz : Normalizer σ τ Float)
    (ratings : RatingVector Float) (s : σ) :
    (∀ scope, ∃ N, ((f.finder : Finder σ Float).find user ratings scope).runFrom s = (.ok N, s) ∧
      ((g.finder : Finder σ Float).find user ratings scope).runFrom s = (.ok N, s)) ∧
    (∀ items?, (Predictor.predict ⟨f.finder, nz⟩ user ratings items?).runFrom s =
      (Predictor.predict ⟨g.finder, nz⟩ user ratings items?).runFrom s) ∧
    ∀ candidates n, (Predictor.recommend ⟨f.finder, nz⟩ user ratings candidates n).runFrom s =
      (Predictor.recommend ⟨g.finder, nz⟩ user ratings candidates n).runFrom s := by
  have hsearch := StaticFinder.search_congr hlimit (StaticFinder.candidates_eq_of_iff hsame)
  have hfind : ∀ scope, (f.finder : Finder σ Float).find user ratings scope =
      g.finder.find user ratings scope := by
    intro scope
    show CallM.ofExcept (f.search user scope) = CallM.ofExcept (g.search user scope)
    rw [hsearch]
  refine ⟨?_, ?_, ?_⟩
  · intro scope
    obtain ⟨N, hN, -⟩ := f.exists_search user scope
    refine ⟨N, ?_, ?_⟩
    · rw [StaticFinder.finder, Finder.find_ofFunction, hN]
    · rw [StaticFinder.finder, Finder.find_ofFunction, ← hsearch, hN]
  · intro items?
    rw [predict_congr_finder nz hfind]
  · intro candidates n
    rw [recommend_congr_finder nz hfind]

end Predictor

/-- User 1 has two candidates, and nothing else is known. -/
def twoCandidates : StaticFinder where
  table := ⟨.ofList [(2, .ofPairs [(10, 5.0), (11, 3.0)]), (3, .ofPairs [(10, 1.0), (12, 5.0)])], by
    unfold RatingVector.AllFinite
    decide +kernel⟩
  similarities := .ofList [(1, .ofList [(2, 0.5), (3, -0.25)])]
  maxNeighbors := 2
  minSimilarity? := none
  maxNeighbors_pos := by decide
  similarities_finite := by
    unfold SimilarityTable.AllFinite
    decide +kernel

/-- The same two candidates among others who do not count: user 1 has ratings and a similarity to
themself, user 4 is not similar enough, user 9 has no ratings, and user 2 has a row too. -/
def amongOthers : StaticFinder where
  table := ⟨.ofList [(1, .ofPairs [(10, 4.0)]), (2, .ofPairs [(10, 5.0), (11, 3.0)]),
      (3, .ofPairs [(10, 1.0), (12, 5.0)]), (4, .ofPairs [(10, 2.0), (13, 2.0)])], by
    unfold RatingVector.AllFinite
    decide +kernel⟩
  similarities := .ofList [(1, .ofList [(1, 1.0), (2, 0.5), (3, -0.25), (4, -0.75), (9, 0.875)]),
    (2, .ofList [(1, 0.5), (4, 0.25)])]
  maxNeighbors := 2
  minSimilarity? := some (-0.5)
  maxNeighbors_pos := by decide
  similarities_finite := by
    unfold SimilarityTable.AllFinite
    decide +kernel

/-- Neither finder shows in the prediction for item 10 that the other tables differ: it is
`(0.5 · 5 - 0.25 · 1) / 0.75`. -/
theorem static_eq_of_candidates_of_two :
    twoCandidates.maxNeighbors = amongOthers.maxNeighbors ∧
      (∀ c, twoCandidates.IsCandidate 1 c ↔ amongOthers.IsCandidate 1 c) ∧
      ∃ p, ((Predictor.static twoCandidates .identity).predict 1 .empty none).runFrom () =
          (.ok p, ()) ∧
        ((Predictor.static amongOthers .identity).predict 1 .empty none).runFrom () =
          (.ok p, ()) ∧
        p.keys = [10, 11, 12] ∧ p.get 10 = 3.0 := by
  have hlimit : twoCandidates.maxNeighbors = amongOthers.maxNeighbors := rfl
  have hsame : ∀ c, twoCandidates.IsCandidate 1 c ↔ amongOthers.IsCandidate 1 c := by
    have hlists : twoCandidates.candidates 1 = amongOthers.candidates 1 := by decide +kernel
    intro c
    rw [← StaticFinder.mem_candidates_iff, ← StaticFinder.mem_candidates_iff, hlists]
  obtain ⟨-, hpredict, -⟩ := Predictor.static_eq_of_candidates hlimit hsame
    (Method.identity.normalizer : Normalizer Unit (Rescaling Float) Float) .empty ()
  have hfacts : (((Predictor.static twoCandidates .identity).predict 1 .empty none).runFrom
      ()).1.toOption.map (fun p => decide (
        p.keys = [10, 11, 12] ∧ RatingVector.get p 10 = 3.0)) = some true := by
    decide +kernel
  refine ⟨hlimit, hsame, ?_⟩
  cases hrun : ((Predictor.static twoCandidates .identity).predict 1 .empty none).runFrom () with
  | mk outcome _ =>
    rw [hrun] at hfacts
    cases outcome with
    | error e => simp [Except.toOption] at hfacts
    | ok p =>
      exact ⟨p, rfl, (hpredict none).symm.trans hrun, of_decide_eq_true (Option.some.inj hfacts)⟩

end PeerRatings
