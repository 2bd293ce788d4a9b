/-
# Normalizers

A normalizer does two things for a user: it moves the user's ratings to the common scale in
place, and it makes the transformation between that scale and the user's own.  It is a
collaborator, so both are calls: they may use a state, and they may be refused.

A refused `normalize` may have changed the vector already.  So the call answers with two things,
how it ended and **the vector as it left it**, and the caller keeps both.

The normalizers of this library are *fitted*: a rescaling is chosen from the ratings a user has,
absent ones left aside, and the same choice serves both calls.  They use no state and refuse
nothing.
-/
import PeerRatings.Collaborator
import PeerRatings.Normalization.Rescaling

namespace PeerRatings

/-- A collaborator that normalizes ratings over `α`, with state `σ`, and hands out
transformations `τ`. -/
structure Normalizer (σ τ α : Type) where
  /-- Normalize a user's ratings: how it ended, and the vector that is left. -/
  normalize : Int → RatingVector α → StateM σ (Except RequestError Unit × RatingVector α)
  /-- Make the transformation of a user with these ratings. -/
  transformation : Int → RatingVector α → CallM σ τ

namespace Normalizer

variable {σ τ α : Type}

/-! ## 1. Normalizers that are functions of their arguments -/

/-- The normalizer that answers by two functions and uses no state. -/
def ofFunctions (normalize : Int → RatingVector α → Except RequestError Unit × RatingVector α)
    (transformation : Int → RatingVector α → Except RequestError τ) : Normalizer σ τ α where
  normalize user v := pure (normalize user v)
  transformation user v := CallM.ofExcept (transformation user v)

/-- The normalizer that chooses a rescaling from a user's known ratings, in the order of their
keys. -/
def fitted [Arithmetic α] (fit : List α → Rescaling α) : Normalizer σ (Rescaling α) α :=
  ofFunctions (fun _ v => (.ok (), (fit v.known).apply v)) fun _ v => .ok (fit v.known)

/-- The normalizer that changes nothing. -/
def identity [Arithmetic α] : Normalizer σ (Rescaling α) α := fitted fun _ => .identity

/-! ## 2. What their calls answer -/

@[simp] theorem normalize_ofFunctions
    (f : Int → RatingVector α → Except RequestError Unit × RatingVector α)
    (g : Int → RatingVector α → Except RequestError τ) (user : Int) (v : RatingVector α) (s : σ) :
    (ofFunctions f g).normalize user v s = (f user v, s) := rfl

@[simp] theorem transformation_ofFunctions
    (f : Int → RatingVector α → Except RequestError Unit × RatingVector α)
    (g : Int → RatingVector α → Except RequestError τ) (user : Int) (v : RatingVector α) (s : σ) :
    ((ofFunctions f g).transformation user v).runFrom s = (g user v, s) := rfl

@[simp] theorem normalize_fitted [Arithmetic α] (fit : List α → Rescaling α) (user : Int)
    (v : RatingVector α) (s : σ) :
    (fitted fit).normalize user v s = ((.ok (), (fit v.known).apply v), s) := rfl

@[simp] theorem transformation_fitted [Arithmetic α] (fit : List α → Rescaling α) (user : Int)
    (v : RatingVector α) (s : σ) :
    ((fitted fit).transformation user v).runFrom s = (.ok (fit v.known), s) := rfl

end Normalizer

end PeerRatings
