/-
# What a build answers after any calls

The settings of the static finder are made call by call: in any order, each as often as one likes,
with builds in between that are refused or not.  A build looks at what has accumulated, and stops at
the first fault.  What it answers is said here by the calls alone: it depends on **the last call of
each kind**, where similarities are of one kind if they are recorded for the same pair.

Two facts carry this.

* What is read of the settings was set by the last of the calls that set it (`read_after`).  Four
  things are read, and each needs no more than what one call does to it.
* The recorded pairs are listed by user and then by neighbor, so the first fault that is found is
  the smallest one (`SimilarityTable.isLeast_of_firstNonFinite?`).
-/
import Mathlib.Data.List.Induction
import Mathlib.Data.Prod.Lex
import PeerRatings.Proofs.RatingTable.Replacements
import PeerRatings.StaticFinder.Settings

namespace PeerRatings

/-! ## 1. The pair at fault -/

/-- The pairs, by user and then by neighbor, whose similarity is not finite. -/
def nonFinitePairs (similarity? : Int → Int → Option Float) : Set (Int ×ₗ Int) :=
  {pair | ∃ x, similarity? (ofLex pair).1 (ofLex pair).2 = some x ∧ Arithmetic.isFinite x = false}

namespace SimilarityTable

variable {t : SimilarityTable} {user neighbor : Int} {x : Float}

/-- The recorded similarity of a neighbor to a user. -/
def similarity? (t : SimilarityTable) (user neighbor : Int) : Option Float :=
  (t.row user).get? neighbor

theorem mem_pairs_iff : (user, neighbor, x) ∈ t.pairs ↔ t.similarity? user neighbor = some x := by
  simp only [pairs, List.mem_flatMap, List.mem_map, Prod.mk.injEq]
  constructor
  · rintro ⟨e, he, p, hp, rfl, rfl, rfl⟩
    have hrow : t.row e.1 = e.2 := by rw [row, IdMap.get?_eq_some_iff.mpr he, Option.getD_some]
    rw [similarity?, hrow]
    exact IdMap.get?_eq_some_iff.mpr hp
  · intro h
    cases hrow : t.get? user with
    | none =>
      rw [similarity?, row, hrow] at h
      cases h
    | some r =>
      rw [similarity?, row, hrow, Option.getD_some] at h
      exact ⟨(user, r), IdMap.get?_eq_some_iff.mp hrow, (neighbor, x),
        IdMap.get?_eq_some_iff.mp h, rfl, rfl, rfl⟩

/-- **The pairs are listed by user and then by neighbor.** -/
theorem pairs_ascending (t : SimilarityTable) :
    t.pairs.Pairwise fun p q => toLex (p.1, p.2.1) < toLex (q.1, q.2.1) := by
  rw [pairs, List.pairwise_flatMap]
  constructor
  · intro e _
    refine List.pairwise_map.mpr (e.2.ascending.imp fun hlt => ?_)
    exact Prod.Lex.toLex_lt_toLex.mpr (.inr ⟨rfl, hlt⟩)
  · refine t.ascending.imp fun hlt p hp q hq => ?_
    obtain ⟨_, -, rfl⟩ := List.mem_map.mp hp
    obtain ⟨_, -, rfl⟩ := List.mem_map.mp hq
    exact Prod.Lex.toLex_lt_toLex.mpr (.inl hlt)

theorem allFinite_iff : t.AllFinite ↔
    ∀ user neighbor x, t.similarity? user neighbor = some x → Arithmetic.isFinite x = true := by
  constructor
  · intro h user neighbor x hx
    exact h (user, neighbor, x) (mem_pairs_iff.mpr hx)
  · intro h p hp
    exact h p.1 p.2.1 p.2.2 (mem_pairs_iff.mp hp)

theorem nonFinitePairs_eq_empty_iff : nonFinitePairs t.similarity? = ∅ ↔ t.AllFinite := by
  rw [allFinite_iff, Set.eq_empty_iff_forall_notMem]
  constructor
  · intro h user neighbor x hx
    by_contra hfault
    exact h (toLex (user, neighbor)) ⟨x, hx, by simpa using hfault⟩
  · rintro h pair ⟨x, hx, hfault⟩
    rw [h _ _ x hx] at hfault
    cases hfault

theorem nonFinitePairs_eq (t : SimilarityTable) : nonFinitePairs t.similarity? =
    {k | ∃ p ∈ t.pairs, (!Arithmetic.isFinite p.2.2) = true ∧ toLex (p.1, p.2.1) = k} := by
  ext pair
  constructor
  · rintro ⟨x, hx, hfault⟩
    exact ⟨(_, _, x), mem_pairs_iff.mpr hx, by rw [hfault]; rfl, rfl⟩
  · rintro ⟨p, hp, hfault, rfl⟩
    exact ⟨p.2.2, mem_pairs_iff.mp hp, by simpa using hfault⟩

theorem exists_firstNonFinite? (h : (nonFinitePairs t.similarity?).Nonempty) :
    ∃ user neighbor x, t.firstNonFinite? = some (user, neighbor, x) := by
  cases hfirst : t.firstNonFinite? with
  | none =>
    have hfinite := firstNonFinite?_eq_none_iff.mp hfirst
    exact absurd (nonFinitePairs_eq_empty_iff.mpr hfinite) h.ne_empty
  | some p => exact ⟨p.1, p.2.1, p.2.2, rfl⟩

/-- **The check names the smallest pair at fault**, and what is recorded for it. -/
theorem isLeast_of_firstNonFinite? (h : t.firstNonFinite? = some (user, neighbor, x)) :
    IsLeast (nonFinitePairs t.similarity?) (toLex (user, neighbor)) ∧
      t.similarity? user neighbor = some x := by
  refine ⟨?_, mem_pairs_iff.mp (List.mem_of_find?_eq_some h)⟩
  rw [nonFinitePairs_eq]
  exact isLeast_key_of_find? t.pairs_ascending h

end SimilarityTable

namespace StaticFinder

/-! ## 2. One build -/

namespace Settings

variable {s : Settings}

theorem limit_pos_iff :
    0 < s.maxNeighbors?.getD defaultMaxNeighbors ↔ s.maxNeighbors? ≠ some 0 := by
  cases s.maxNeighbors? with
  | none => exact iff_of_true (by decide) nofun
  | some limit => simp [Nat.pos_iff_ne_zero]

theorem build_of_limit_zero (h : s.maxNeighbors? = some 0) : s.build = .error .noNeighborsAllowed :=
  dif_neg fun hpos => limit_pos_iff.mp hpos h

theorem build_of_fault (hlimit : s.maxNeighbors? ≠ some 0) {user neighbor : Int} {x : Float}
    (h : s.similarities.firstNonFinite? = some (user, neighbor, x)) :
    s.build = .error (.badSimilarity user neighbor x) := by
  rw [build, dif_pos (limit_pos_iff.mpr hlimit)]
  split
  · rename_i hfault
    obtain ⟨rfl, rfl, rfl⟩ : _ ∧ _ ∧ _ := by simpa using h.symm.trans hfault
    rfl
  · rename_i hnone
    rw [h] at hnone
    cases hnone

/-- What a build answers if the limit and the similarities are in order. -/
theorem build_of_allFinite (hlimit : s.maxNeighbors? ≠ some 0) (h : s.similarities.AllFinite) :
    (s.table? = none ∧ s.build = .error (.missing .store)) ∨
      ∃ f : StaticFinder, s.build = .ok f ∧ s.table? = some f.table ∧
        f.similarities = s.similarities ∧
        f.maxNeighbors = s.maxNeighbors?.getD defaultMaxNeighbors ∧
        f.minSimilarity? = s.minSimilarity? := by
  rw [build, dif_pos (limit_pos_iff.mpr hlimit)]
  split
  · rename_i hfault
    rw [SimilarityTable.firstNonFinite?_eq_none_iff.mpr h] at hfault
    cases hfault
  · cases s.table? with
    | none => exact .inl ⟨rfl, rfl⟩
    | some table => exact .inr ⟨_, rfl, rfl, rfl, rfl, rfl⟩

/-- A finder that is built says what was in order, and it has taken over the settings. -/
theorem of_build_ok {f : StaticFinder} (h : s.build = .ok f) :
    s.maxNeighbors? ≠ some 0 ∧ s.similarities.AllFinite ∧ s.table? = some f.table ∧
      f.similarities = s.similarities ∧
      f.maxNeighbors = s.maxNeighbors?.getD defaultMaxNeighbors ∧
      f.minSimilarity? = s.minSimilarity? := by
  have hlimit : s.maxNeighbors? ≠ some 0 := fun hzero => by
    rw [build_of_limit_zero hzero] at h
    cases h
  have hfinite : s.similarities.AllFinite := by
    refine SimilarityTable.firstNonFinite?_eq_none_iff.mp (Option.eq_none_iff_forall_ne_some.mpr ?_)
    intro p hfault
    rw [build_of_fault hlimit hfault] at h
    cases h
  rcases build_of_allFinite hlimit hfinite with ⟨-, hmissing⟩ | ⟨f', hf', htaken⟩
  · rw [hmissing] at h
    cases h
  · obtain rfl := Except.ok.inj (hf'.symm.trans h)
    exact ⟨hlimit, hfinite, htaken⟩

/-- **When a build succeeds.** -/
theorem build_ok_iff : (∃ f, s.build = .ok f) ↔
    s.table?.isSome ∧ s.maxNeighbors? ≠ some 0 ∧ ∀ user neighbor x,
      s.similarities.similarity? user neighbor = some x → Arithmetic.isFinite x = true := by
  rw [← SimilarityTable.allFinite_iff]
  constructor
  · rintro ⟨f, hf⟩
    obtain ⟨hlimit, hfinite, htable, -⟩ := of_build_ok hf
    exact ⟨Option.isSome_of_eq_some htable, hlimit, hfinite⟩
  · rintro ⟨htable, hlimit, hfinite⟩
    rcases build_of_allFinite hlimit hfinite with ⟨hnone, -⟩ | ⟨f, hf, -⟩
    · rw [hnone] at htable
      cases htable
    · exact ⟨f, hf⟩

end Settings

/-! ## 3. One call -/

/-- A call on the settings: one that sets something, or a build. -/
inductive Call where
  | table (table : RatingTable)
  | similarity (user neighbor : Int) (similarity : Float)
  | maxNeighbors (limit : Nat)
  | minSimilarity (least : Float)
  | build

namespace Call

/-- The table that a call sets. -/
def table? : Call → Option RatingTable
  | table t => some t
  | _ => none

/-- The similarity that a call records for a pair. -/
def similarity? (user neighbor : Int) : Call → Option Float
  | similarity u n x => if user = u ∧ neighbor = n then some x else none
  | _ => none

/-- The limit that a call sets. -/
def maxNeighbors? : Call → Option Nat
  | maxNeighbors limit => some limit
  | _ => none

/-- The least similarity that a call sets. -/
def minSimilarity? : Call → Option Float
  | minSimilarity least => some least
  | _ => none

end Call

namespace Settings

/-- Make a call: its answer, if it is a build, and the settings that it leaves. -/
def perform (s : Settings) : Call → Option (Except (SettingsError Float) StaticFinder) × Settings
  | .table t => (none, s.withTable t)
  | .similarity user neighbor x => (none, s.withSimilarity user neighbor x)
  | .maxNeighbors limit => (none, s.withMaxNeighbors limit)
  | .minSimilarity least => (none, s.withMinSimilarity least)
  | .build => (some s.build, s)

variable (s : Settings) (c : Call)

theorem table?_perform : (s.perform c).2.table? = c.table?.or s.table? := by
  cases c <;> rfl

theorem similarity?_perform (user neighbor : Int) :
    (s.perform c).2.similarities.similarity? user neighbor =
      (c.similarity? user neighbor).or (s.similarities.similarity? user neighbor) := by
  cases c with
  | similarity u n x =>
    rw [perform, withSimilarity, SimilarityTable.similarity?, SimilarityTable.get?_row_record,
      Call.similarity?]
    split <;> rfl
  | _ => rfl

theorem maxNeighbors?_perform :
    (s.perform c).2.maxNeighbors? = c.maxNeighbors?.or s.maxNeighbors? := by
  cases c <;> rfl

theorem minSimilarity?_perform :
    (s.perform c).2.minSimilarity? = c.minSimilarity?.or s.minSimilarity? := by
  cases c <;> rfl

/-! ## 4. Any calls -/

/-- The settings after calls, from settings without any. -/
def after (calls : List Call) : Settings := calls.foldl (fun s c => (s.perform c).2) {}

/-- What is set by the last of the calls that set it, if there is one. -/
def last? {β : Type} (sets : Call → Option β) (calls : List Call) : Option β :=
  calls.reverse.findSome? sets

/-- The similarity that is recorded last for a pair. -/
def lastSimilarity? (calls : List Call) (user neighbor : Int) : Option Float :=
  last? (Call.similarity? user neighbor) calls

theorem after_concat (calls : List Call) (c : Call) :
    after (calls ++ [c]) = ((after calls).perform c).2 := by
  rw [after, List.foldl_append, List.foldl_cons, List.foldl_nil, after]

theorem last?_concat {β : Type} (sets : Call → Option β) (calls : List Call) (c : Call) :
    last? sets (calls ++ [c]) = (sets c).or (last? sets calls) :=
  findSome?_reverse_concat sets calls c

/-- **What is read after calls was set last**, if one call sets what is read after it. -/
theorem read_after {β : Type} (read : Settings → Option β) (sets : Call → Option β)
    (hempty : read {} = none) (hstep : ∀ s c, read (s.perform c).2 = (sets c).or (read s))
    (calls : List Call) : read (after calls) = last? sets calls := by
  induction calls using List.reverseRecOn with
  | nil => exact hempty
  | append_singleton calls c ih => rw [after_concat, hstep, ih, last?_concat]

variable (calls : List Call)

theorem table?_after : (after calls).table? = last? Call.table? calls :=
  read_after table? Call.table? rfl table?_perform calls

theorem similarity?_after :
    (after calls).similarities.similarity? = lastSimilarity? calls := by
  funext user neighbor
  exact read_after (fun s => s.similarities.similarity? user neighbor)
    (Call.similarity? user neighbor) rfl (fun s c => similarity?_perform s c user neighbor) calls

theorem maxNeighbors?_after : (after calls).maxNeighbors? = last? Call.maxNeighbors? calls :=
  read_after maxNeighbors? Call.maxNeighbors? rfl maxNeighbors?_perform calls

theorem minSimilarity?_after : (after calls).minSimilarity? = last? Call.minSimilarity? calls :=
  read_after minSimilarity? Call.minSimilarity? rfl minSimilarity?_perform calls

/-- **A build depends on the last call of each kind.**  Let any calls be made: tables, similarities,
limits and least similarities, in any order, with builds among them.  A build after them leaves the
settings as they are, and

* it succeeds exactly if a table was set, the last limit, if there is one, is not zero, and for
  every pair the last similarity is finite;
* it is refused for the limit if the last one is zero; otherwise for the smallest pair, by user and
  then by neighbor, whose last similarity is not finite, with that similarity; otherwise for the
  missing table;
* a finder that is built has the table, the similarity of every pair, the limit and the least
  similarity that were set last, with a limit of 30 and no least similarity if these were never
  set. -/
theorem build_after_calls (calls : List Call) :
    ∃ answer, (after calls).perform .build = (some answer, after calls) ∧
      ((∃ f, answer = .ok f) ↔ (last? Call.table? calls).isSome ∧
        last? Call.maxNeighbors? calls ≠ some 0 ∧ ∀ user neighbor x,
          lastSimilarity? calls user neighbor = some x → Arithmetic.isFinite x = true) ∧
      (last? Call.maxNeighbors? calls = some 0 → answer = .error .noNeighborsAllowed) ∧
      (last? Call.maxNeighbors? calls ≠ some 0 →
        (nonFinitePairs (lastSimilarity? calls)).Nonempty → ∃ user neighbor x,
          IsLeast (nonFinitePairs (lastSimilarity? calls)) (toLex (user, neighbor)) ∧
          lastSimilarity? calls user neighbor = some x ∧
          answer = .error (.badSimilarity user neighbor x)) ∧
      (last? Call.maxNeighbors? calls ≠ some 0 → nonFinitePairs (lastSimilarity? calls) = ∅ →
        last? Call.table? calls = none → answer = .error (.missing .store)) ∧
      ∀ f, answer = .ok f →
        last? Call.table? calls = some f.table ∧
        (∀ user neighbor,
          f.similarities.similarity? user neighbor = lastSimilarity? calls user neighbor) ∧
        f.maxNeighbors = (last? Call.maxNeighbors? calls).getD 30 ∧
        f.minSimilarity? = last? Call.minSimilarity? calls := by
  rw [← table?_after, ← similarity?_after, ← maxNeighbors?_after, ← minSimilarity?_after]
  refine ⟨_, rfl, build_ok_iff, build_of_limit_zero, fun hlimit hsome => ?_,
    fun hlimit hnone htable => ?_, fun f hf => ?_⟩
  · obtain ⟨user, neighbor, x, hfirst⟩ := SimilarityTable.exists_firstNonFinite? hsome
    obtain ⟨hleast, hx⟩ := SimilarityTable.isLeast_of_firstNonFinite? hfirst
    exact ⟨user, neighbor, x, hleast, hx, build_of_fault hlimit hfirst⟩
  · rcases build_of_allFinite hlimit (SimilarityTable.nonFinitePairs_eq_empty_iff.mp hnone) with
      ⟨-, hmissing⟩ | ⟨f, -, hsome, -⟩
    · exact hmissing
    · rw [htable] at hsome
      cases hsome
  · obtain ⟨-, -, htable, hsimilarities, hlimit, hleast⟩ := of_build_ok hf
    rw [hsimilarities]
    exact ⟨htable, fun _ _ => rfl, hlimit, hleast⟩

/-- A similarity that is refused is recorded again, and then spoiled. -/
example :
    let calls : List Call := [.table twoRaters, .similarity 1 5 (1.0 / 0.0), .build]
    (after calls).build.isOk = false ∧
      (after (calls ++ [.similarity 1 5 0.5])).build.isOk = true ∧
      (after (calls ++ [.similarity 1 5 0.5, .similarity 1 5 (0.0 / 0.0)])).build.isOk = false := by
  decide +kernel

end Settings

end StaticFinder

end PeerRatings
