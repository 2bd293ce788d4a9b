/-
# Transformations between a user's scale and the common one

A normalizer hands out, per user, a transformation that is fixed from then on.  `apply` moves a
vector from the user's own scale to the common one and `unapply` moves it back.  Both work in
place: they change values and leave the keys alone.  For the way back, which a prediction takes,
that is the one thing asked of every transformation.

The transformations of this library are **rescalings**: nothing at all, or a shift followed by a
scale.  They act on every value by itself.
-/
import PeerRatings.RatingVector

namespace PeerRatings

/-- A transformation `τ` of rating vectors over `α`, with its way back. -/
class Transformation (τ : Type) (α : outParam Type) where
  /-- From the user's scale to the common one. -/
  apply : τ → RatingVector α → RatingVector α
  /-- From the common scale back to the user's. -/
  unapply : τ → RatingVector α → RatingVector α
  /-- Values move back, keys stay. -/
  keys_unapply : ∀ (t : τ) (v : RatingVector α), (unapply t v).keys = v.keys

/-! ## 1. Rescalings -/

/-- A transformation that treats all values alike. -/
inductive Rescaling (α : Type) where
  /-- Every value stays as it is. -/
  | identity
  /-- A value `r` becomes `(r - offset) / scale`. -/
  | shiftScale (offset scale : α)
  deriving DecidableEq

namespace Rescaling

variable {α : Type} [Arithmetic α]

/-- What happens to one value. -/
def forward : Rescaling α → α → α
  | identity, r => r
  | shiftScale offset scale, r => (r - offset) / scale

/-- What happens to one value on the way back. -/
def backward : Rescaling α → α → α
  | identity, r => r
  | shiftScale offset scale, r => r * scale + offset

/-- Move every value. -/
def apply (t : Rescaling α) (v : RatingVector α) : RatingVector α :=
  v.mapEntries fun _ r => t.forward r

/-- Move every value back. -/
def unapply (t : Rescaling α) (v : RatingVector α) : RatingVector α :=
  v.mapEntries fun _ r => t.backward r

instance : Transformation (Rescaling α) α where
  apply := apply
  unapply := unapply
  keys_unapply _ _ := IdMap.keys_mapEntries ..

/-! ## 2. The view -/

@[simp] theorem get?_apply (t : Rescaling α) (v : RatingVector α) (key : Int) :
    (t.apply v).get? key = (v.get? key).map t.forward :=
  IdMap.get?_mapEntries ..

@[simp] theorem get?_unapply (t : Rescaling α) (v : RatingVector α) (key : Int) :
    (t.unapply v).get? key = (v.get? key).map t.backward :=
  IdMap.get?_mapEntries ..

@[simp] theorem apply_identity (v : RatingVector α) : (identity : Rescaling α).apply v = v :=
  IdMap.ext_get? fun key => by cases h : v.get? key <;> simp [forward, h]

@[simp] theorem unapply_identity (v : RatingVector α) : (identity : Rescaling α).unapply v = v :=
  IdMap.ext_get? fun key => by cases h : v.get? key <;> simp [backward, h]

end Rescaling

end PeerRatings
