/-
# Recommendations from parts of the candidates

A long list of candidates can be split, each part asked for by itself, and the best of the answers
taken.  This file says that nothing is lost that way.  With the static finder and one of the
library's methods, the `n` best of two lists together are the `n` best among the `n` best of each.

Two facts carry this.  The score of an item does not depend on the other candidates
(`Predictor.predict_common_items`), so what qualifies in the whole qualifies with the same score in
every part that has it (`qualifies_append_iff`).  And the first of two kinds are among the first of
each (`FirstIn.of_merge`).  The two parts may overlap.  An item of both is then listed twice with
one score, and merging keeps it once.

Where scores differ by a part, as they may with a finder of another kind, neither the choice of the
copy nor the cut would be right, and nothing is claimed.
-/
import PeerRatings.Proofs.Prediction.ItemIndependence
import PeerRatings.Proofs.Prediction.Recommendations

namespace PeerRatings

variable {σ : Type}

namespace Recommendation

/-! ## 1. The order of recommendations -/

/-- `a` scores higher than `b`, or alike with an item that is not larger. -/
abbrev notAfter : Recommendation Int → Recommendation Int → Bool :=
  Sorting.byKey fun rec => (-rec.score.key, rec.item)

theorem notAfter_iff {a b : Recommendation Int} : a.notAfter b = true ↔
    b.score.key < a.score.key ∨ b.score.key = a.score.key ∧ a.item ≤ b.item := by
  rw [Sorting.byKey_iff]
  omega

/-- Equal scores are equal places, so `a` stands before `b` by two integers. -/
theorem precedes_iff {a b : Recommendation Int} : a.Precedes b ↔
    b.score.key < a.score.key ∨ b.score.key = a.score.key ∧ a.item < b.item := by
  have hscore : a.score = b.score ↔ b.score.key = a.score.key :=
    ⟨fun h => congrArg Score.key h.symm, fun h => (Score.key_injective h).symm⟩
  rw [Precedes, hscore]

instance : Std.Asymm Precedes where
  asymm a b hab hba := by
    rw [precedes_iff] at hab hba
    omega

instance : IsTrans (Recommendation Int) Precedes where
  trans a b c hab hbc := by
    rw [precedes_iff] at hab hbc ⊢
    omega

/-! ## 2. Each item once -/

/-- Keep the first recommendation of each item. -/
def oncePerItem : List (Recommendation Int) → List (Recommendation Int)
  | [] => []
  | rec :: rest => rec :: (oncePerItem rest).filter fun other => other.item ≠ rec.item

theorem oncePerItem_sublist (recs : List (Recommendation Int)) :
    (oncePerItem recs).Sublist recs := by
  induction recs with
  | nil => exact .slnil
  | cons rec rest ih => exact (List.filter_sublist.trans ih).cons_cons rec

theorem pairwise_oncePerItem (recs : List (Recommendation Int)) :
    (oncePerItem recs).Pairwise fun a b => a.item ≠ b.item := by
  induction recs with
  | nil => exact .nil
  | cons rec rest ih =>
    refine List.pairwise_cons.mpr ⟨?_, ih.sublist List.filter_sublist⟩
    intro other hother
    have hne := (List.mem_filter.mp hother).2
    exact fun heq => by simp [heq] at hne

/-- Where an item has one score, nothing that is left out is missed. -/
theorem mem_oncePerItem_iff {recs : List (Recommendation Int)} {score : Int → Score}
    (hscore : ∀ rec ∈ recs, rec.score = score rec.item) {rec : Recommendation Int} :
    rec ∈ oncePerItem recs ↔ rec ∈ recs := by
  refine ⟨fun h => (oncePerItem_sublist recs).subset h, ?_⟩
  induction recs with
  | nil => exact id
  | cons head rest ih =>
    intro hrec
    by_cases hitem : rec.item = head.item
    · have heq : rec = head := by
        have hr := hscore rec hrec
        have hh := hscore head List.mem_cons_self
        cases rec
        cases head
        simp_all
      rw [heq]
      exact List.mem_cons_self
    · have hne : rec ≠ head := fun heq => hitem (congrArg item heq)
      have hrest : rec ∈ rest := (List.mem_cons.mp hrec).resolve_left hne
      refine List.mem_cons_of_mem _ (List.mem_filter.mpr ⟨?_, by simpa using hitem⟩)
      exact ih (fun r hr => hscore r (List.mem_cons_of_mem _ hr)) hrest

end Recommendation

/-! ## 3. Merging rankings -/

namespace Ranking

open Recommendation

/-- Two rankings in one, by descending score and then by ascending item.  Of an item that both have,
the first ranking's recommendation is kept. -/
def merge (r r' : Ranking Int) : Ranking Int where
  recommendations :=
    Sorting.sorted notAfter (oncePerItem (r.recommendations ++ r'.recommendations))
  bestFirst := by
    refine (Sorting.pairwise_sorted Sorting.byKey_trans Sorting.byKey_total _).imp ?_
    intro a b h
    rw [notAfter_iff] at h
    omega

theorem precedes_merge (r r' : Ranking Int) : (r.merge r').recommendations.Pairwise Precedes := by
  have hsorted : (r.merge r').recommendations.Pairwise fun a b => a.notAfter b = true :=
    Sorting.pairwise_sorted Sorting.byKey_trans Sorting.byKey_total _
  have hperm : (r.merge r').recommendations.Perm
      (oncePerItem (r.recommendations ++ r'.recommendations)) := Sorting.perm_sorted _
  have honce := (pairwise_oncePerItem (r.recommendations ++ r'.recommendations)).perm hperm.symm
    fun hne => hne.symm
  refine (hsorted.and honce).imp ?_
  rintro a b ⟨hle, hne⟩
  rw [notAfter_iff] at hle
  rw [precedes_iff]
  omega

theorem mem_merge_iff {r r' : Ranking Int} {score : Int → Score}
    (hscore : ∀ rec ∈ r.recommendations, rec.score = score rec.item)
    (hscore' : ∀ rec ∈ r'.recommendations, rec.score = score rec.item)
    {rec : Recommendation Int} :
    rec ∈ (r.merge r').recommendations ↔ rec ∈ r.recommendations ∨ rec ∈ r'.recommendations := by
  have hboth : ∀ rec ∈ r.recommendations ++ r'.recommendations, rec.score = score rec.item := by
    intro rec hrec
    rcases List.mem_append.mp hrec with hrec | hrec
    · exact hscore rec hrec
    · exact hscore' rec hrec
  rw [merge, (Sorting.perm_sorted _).mem_iff, mem_oncePerItem_iff hboth, List.mem_append]

theorem eq_of_recommendations {ι : Type} {r r' : Ranking ι}
    (h : r.recommendations = r'.recommendations) : r = r' := by
  cases r
  cases r'
  simp only [Ranking.mk.injEq]
  exact h

/-! ## 4. The best of two parts -/

section Parts

variable {whole left right rated : RatingVector Float} {a b : List Int}
  (hleft : ∀ item ∈ a, whole.get item = left.get item)
  (hright : ∀ item ∈ b, whole.get item = right.get item)
include hleft hright

/-- What qualifies in the whole qualifies, with the same score, in a part that has it. -/
theorem qualifies_append_iff {rec : Recommendation Int} :
    Qualifies whole rated (a ++ b) rec ↔
      Qualifies left rated a rec ∨ Qualifies right rated b rec := by
  constructor
  · rintro ⟨hcandidate, hunrated, hpredicted, hscore⟩
    rcases List.mem_append.mp hcandidate with ha | hb
    · exact .inl ⟨ha, hunrated, hleft _ ha ▸ hpredicted, hleft _ ha ▸ hscore⟩
    · exact .inr ⟨hb, hunrated, hright _ hb ▸ hpredicted, hright _ hb ▸ hscore⟩
  · rintro (⟨ha, hunrated, hpredicted, hscore⟩ | ⟨hb, hunrated, hpredicted, hscore⟩)
    · rw [← hleft _ ha] at hpredicted hscore
      exact ⟨List.mem_append_left b ha, hunrated, hpredicted, hscore⟩
    · rw [← hright _ hb] at hpredicted hscore
      exact ⟨List.mem_append_right a hb, hunrated, hpredicted, hscore⟩

/-- **Cutting the parts and merging them cuts the whole.** -/
theorem take_ofPredictions_append (hwholeKeys : ∀ item, item ∈ whole.keys ↔ item ∈ a ++ b)
    (hleftKeys : ∀ item, item ∈ left.keys ↔ item ∈ a)
    (hrightKeys : ∀ item, item ∈ right.keys ↔ item ∈ b) (n : Nat) :
    (((ofPredictions left rated).take n).merge ((ofPredictions right rated).take n)).take n =
      (ofPredictions whole rated).take n := by
  have hfirst := firstIn_take rated hleftKeys n
  have hfirst' := firstIn_take rated hrightKeys n
  have hscore : ∀ rec ∈ ((ofPredictions left rated).take n).recommendations,
      rec.score = .ofFloat (whole.get rec.item) := by
    intro rec hrec
    have hq := hfirst.qualified rec hrec
    rw [hleft _ hq.candidate, hq.score]
  have hscore' : ∀ rec ∈ ((ofPredictions right rated).take n).recommendations,
      rec.score = .ofFloat (whole.get rec.item) := by
    intro rec hrec
    have hq := hfirst'.qualified rec hrec
    rw [hright _ hq.candidate, hq.score]
  have hmerged := hfirst.of_merge hfirst' (precedes_merge _ _) fun rec =>
    @mem_merge_iff _ _ (fun item => .ofFloat (whole.get item)) hscore hscore' rec
  have hsame : Qualifies whole rated (a ++ b) =
      fun rec => Qualifies left rated a rec ∨ Qualifies right rated b rec :=
    funext fun _ => propext (qualifies_append_iff hleft hright)
  have hwhole := firstIn_take rated hwholeKeys n
  rw [hsame] at hwhole
  exact eq_of_recommendations (hmerged.unique hwhole)

end Parts

end Ranking

namespace Predictor

/-- **The best of two lists of candidates are found among the best of each.**  With the static
finder and a method of the library, recommending out of two lists together is recommending out of
either, merging the two rankings, by descending score and then by ascending item with each item
once, and cutting the result; so everything recommended out of both lists is recommended out of
one, with the same score. -/
theorem recommend_append (f : StaticFinder) (m : Method) (user : Int)
    (ratings : RatingVector Float) (a b : List Int) (n : Nat) (s : σ) :
    ∃ whole left right : Ranking Int,
      ((static f m).recommend user ratings (a ++ b) n).runFrom s = (.ok whole, s) ∧
      ((static f m).recommend user ratings a n).runFrom s = (.ok left, s) ∧
      ((static f m).recommend user ratings b n).runFrom s = (.ok right, s) ∧
      whole = (left.merge right).take n ∧
      ∀ rec ∈ whole.recommendations,
        rec ∈ left.recommendations ∨ rec ∈ right.recommendations := by
  obtain ⟨p, q, hp, hq, hpq⟩ := predict_common_items f m user ratings (a ++ b) a s
  obtain ⟨p', r, hp', hr, hpr⟩ := predict_common_items f m user ratings (a ++ b) b s
  obtain rfl : p = p' := Except.ok.inj (congrArg Prod.fst (hp.symm.trans hp'))
  have hleft : ∀ item ∈ a, p.get item = q.get item := fun item h =>
    hpq item (List.mem_append_left b h) h
  have hright : ∀ item ∈ b, p.get item = r.get item := fun item h =>
    hpr item (List.mem_append_right a h) h
  have hmerge := @Ranking.take_ofPredictions_append p q r ratings a b hleft hright
    (mem_keys_predict hp) (mem_keys_predict hq) (mem_keys_predict hr) n
  refine ⟨_, _, _, recommend_of_predicted hp n, recommend_of_predicted hq n,
    recommend_of_predicted hr n, hmerge.symm, ?_⟩
  intro rec hrec
  rw [← hmerge] at hrec
  have hmem := (Recommendation.oncePerItem_sublist _).subset
    ((Sorting.perm_sorted _).subset (List.mem_of_mem_take hrec))
  exact List.mem_append.mp hmem

end Predictor

end PeerRatings
