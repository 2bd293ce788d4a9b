/-
# A journal of the calls made

Which collaborators are asked, in which order and with what, is part of what a prediction does.
To state it, a collaborator is wrapped so that it writes each call into a journal before it
answers.  The journal is part of the state, so it is there even when the call is refused, and it
changes nothing about the answers.

The entry of a `normalize` call holds the vector as it came in.
-/
import PeerRatings.ItemSet
import PeerRatings.Normalization.Normalizer

namespace PeerRatings

/-- One call to a collaborator, with what it was asked. -/
inductive JournalEntry (α : Type) where
  /-- Neighbors were asked for. -/
  | find (user : Int) (ratings : RatingVector α) (scope : Option ItemSet)
  /-- Ratings were to be normalized. -/
  | normalize (user : Int) (ratings : RatingVector α)
  /-- A transformation was asked for. -/
  | transform (user : Int) (ratings : RatingVector α)
  deriving DecidableEq

/-- The collaborators' own state together with the calls made so far, the earliest first. -/
abbrev Journaled (σ α : Type) := σ × List (JournalEntry α)

variable {σ τ α β : Type}

/-- Write an entry, then go on with the call. -/
def journal (entry : JournalEntry α) (call : StateM σ β) : StateM (Journaled σ α) β :=
  fun s =>
    let answer := call s.1
    (answer.1, (answer.2, s.2 ++ [entry]))

/-- The normalizer that keeps a journal. -/
def Normalizer.journaled (nz : Normalizer σ τ α) : Normalizer (Journaled σ α) τ α where
  normalize user v := journal (.normalize user v) (nz.normalize user v)
  transformation user v := journal (.transform user v) (nz.transformation user v)

/-- **A journal changes no answer**, and adds exactly one entry. -/
theorem journal_apply (entry : JournalEntry α) (call : StateM σ β) (s : σ)
    (log : List (JournalEntry α)) :
    journal entry call (s, log) = ((call s).1, ((call s).2, log ++ [entry])) := rfl

end PeerRatings
