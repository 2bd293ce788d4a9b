/-
# Calls to collaborators

A prediction is made with two collaborators that the library does not own: a finder of neighbors
and a normalizer of ratings.  A collaborator may remember things from call to call, and it may
refuse.  `CallM σ` is the type of such a call: it reads and writes the collaborators' state `σ`,
and it ends in a result or in a `RequestError`.

**State survives a refusal.**  What a call has written before it refuses is there afterwards, so
a record of the calls made (`PeerRatings.Journal`) is complete however the last one ended.

A collaborator without a state of its own leaves `σ` alone; its calls are plain functions that
are lifted (`CallM.ofExcept`).
-/
import PeerRatings.Error

namespace PeerRatings

/-- A call that may use the state `σ` and may be refused. -/
abbrev CallM (σ β : Type) := ExceptT RequestError (StateM σ) β

namespace CallM

variable {σ β : Type}

/-- The call that ends with a known outcome and leaves the state alone. -/
def ofExcept (outcome : Except RequestError β) : CallM σ β := fun s => (outcome, s)

/-- Make the call in the state `s`: its outcome, and the state it leaves. -/
def runFrom (call : CallM σ β) (s : σ) : Except RequestError β × σ := call s

@[simp] theorem runFrom_ofExcept (outcome : Except RequestError β) (s : σ) :
    (ofExcept outcome).runFrom s = (outcome, s) := rfl

@[simp] theorem runFrom_pure (b : β) (s : σ) : (pure b : CallM σ β).runFrom s = (.ok b, s) := rfl

/-- After a refusal nothing more is done, and the state stays as the refusal left it. -/
theorem runFrom_bind {γ : Type} (call : CallM σ β) (next : β → CallM σ γ) (s : σ) :
    (call >>= next).runFrom s =
      match call.runFrom s with
      | (.ok b, s') => (next b).runFrom s'
      | (.error e, s') => (.error e, s') := by
  simp only [runFrom, bind, ExceptT.bind, ExceptT.mk, StateT.bind, ExceptT.bindCont]
  rcases call s with ⟨outcome, s'⟩
  cases outcome <;> rfl

end CallM

end PeerRatings
