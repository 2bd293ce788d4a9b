/-
# Items do not influence one another

Predictions of the static finder with one of the library's own normalizers are made per request,
and two requests that share an item have little else in common: the finder copies other vectors,
in another order and under other handles, and the pass normalizes them in another order.  Yet the
shared item gets the same value.

The argument compares the two runs through the finder's choice.  For an item of both requests the
entries of either run stand, one by one, for the same eligible candidates (`Answers.votes`), so
the entries of one run are the entries of the other up to handles, and scores do not see handles
(`Neighborhoods.meanVote_eq_of_sameVotes`).  Nothing is used of the arithmetic.

A request without items is the request for the items that somebody is listed for
(`search_items`), which need no comparison: the finder's two answers are equal.
-/
import PeerRatings.Normalization.Method
import PeerRatings.Proofs.Prediction.Fitted
import PeerRatings.Proofs.Prediction.Handles
import PeerRatings.Proofs.StaticFinder.Listing

namespace PeerRatings

variable {σ : Type}

namespace StaticFinder

/-! ## 1. Two answers of the finder -/

theorem forall₂_of_common {β γ δ : Type} {R : β → γ → Prop} {S : β → δ → Prop} {l : List β}
    {xs : List γ} {ys : List δ} (hxs : List.Forall₂ R l xs) (hys : List.Forall₂ S l ys) :
    List.Forall₂ (fun x y => ∃ b, R b x ∧ S b y) xs ys := by
  induction hxs generalizing ys with
  | nil =>
    cases hys
    exact .nil
  | cons hx _ ih =>
    cases hys with
    | cons hy hrest => exact .cons ⟨_, hx, hy⟩ (ih hrest)

theorem Answers.oneUserPerHandle {choose : Int → List Candidate} {items : ItemSet}
    {N : Neighborhoods Float} (h : Answers choose items N) : N.OneUserPerHandle :=
  fun n hn m hm heq => (h.shared n hn m hm).mp heq

/-- **Two answers agree up to handles** on the items that both were asked for. -/
theorem Answers.sameVotes {choose : Int → List Candidate} {items items' : ItemSet}
    {N M : Neighborhoods Float} (hN : Answers choose items N) (hM : Answers choose items' M)
    {item : Int} (hitem : item ∈ items.keys) (hitem' : item ∈ items'.keys) :
    List.Forall₂ (Neighborhoods.SameVote N M) (N.neighbors item) (M.neighbors item) := by
  refine (forall₂_of_common (hN.votes item hitem) (hM.votes item hitem')).imp ?_
  rintro n m ⟨c, hn, hm⟩
  exact ⟨hm.1.trans hn.1.symm, hm.2.1.trans hn.2.1.symm, hm.2.2.trans hn.2.2.symm⟩

/-- Asked for all items, the finder lists somebody for each item that it goes through. -/
theorem Answers.items_eq {f : StaticFinder} {user : Int} {N : Neighborhoods Float}
    (h : Answers (f.eligible (f.candidates user)) (itemsFor (f.candidates user) none) N) :
    N.items = itemsFor (f.candidates user) none := by
  refine ItemSet.ext_mem fun item => ?_
  rw [Neighborhoods.mem_items_iff]
  constructor
  · intro hne
    by_contra hitem
    exact hne (h.others item hitem)
  · intro hitem
    obtain ⟨c, hc, hrated⟩ := List.mem_flatMap.mp (ItemSet.mem_keys_ofList.mp hitem)
    have hne := eligible_ne_nil (f := f) hc (IdMap.contains_iff_mem_keys.mpr hrated)
    rw [← List.length_pos_iff, ← (h.votes item hitem).length_eq]
    exact List.length_pos_iff.mpr hne

/-- **Asking for all items is asking for those with neighbors.** -/
theorem search_items {f : StaticFinder} {user : Int} {N : Neighborhoods Float}
    (h : f.search user none = .ok N) : f.search user (some N.items) = .ok N := by
  obtain ⟨M, hM, hanswers⟩ := f.exists_search user none
  obtain rfl : M = N := Except.ok.inj (hM.symm.trans h)
  rw [hanswers.items_eq]
  exact hM

end StaticFinder

/-! ## 2. Predictions with a fitted normalizer -/

namespace Predictor

/-- The static finder with one of the library's methods of normalization. -/
def static (f : StaticFinder) (m : Method) : Predictor σ (Rescaling Float) Float :=
  ⟨f.finder, m.normalizer⟩

variable {f : StaticFinder} {m : Method} {user : Int} {ratings : RatingVector Float}

/-- How a method normalizes a user's ratings, as a function. -/
def fitted (m : Method) (_ : Int) (v : RatingVector Float) :
    Except RequestError Unit × RatingVector Float :=
  (.ok (), (m.fit v.known).apply v)

theorem predict_static {items? : Option (List Int)} {N : Neighborhoods Float} (s : σ)
    (hN : f.search user (items?.map ItemSet.ofList) = .ok N) :
    ((static f m).predict user ratings items?).runFrom s =
      (.ok ((m.fit ratings.known).unapply (N.scoresOnce (fitted m) (N.scope items?))), s) := by
  have hfind : ((StaticFinder.finder f : Finder σ Float).find user ratings
      (items?.map ItemSet.ofList)).runFrom s = (.ok N, s) := by
    rw [StaticFinder.finder, Finder.find_ofFunction, hN]
  rw [static, m.normalizer_eq_fitted]
  exact predict_fitted hfind

/-- The value of an item in a prediction for items on a list. -/
theorem get_unapply_scoresOnce {items : List Int} {item : Int} {N : Neighborhoods Float}
    (t : Rescaling Float) (hitem : item ∈ items) :
    RatingVector.get (t.unapply (N.scoresOnce (fitted m) (N.scope (some items)))) item =
      t.backward (meanVote (N.ratingOnce (fitted m) item) (N.neighbors item)) := by
  have hscope : item ∈ (N.scope (some items)).keys := Neighborhoods.mem_scope_iff.mpr hitem
  refine RatingVector.get_eq ?_
  rw [Rescaling.get?_unapply, Neighborhoods.get?_scoresOnce_of_mem hscope]
  rfl

/-! ## 3. One item in two requests -/

/-- **Two requests agree on the items they share.** -/
theorem predict_common_items (f : StaticFinder) (m : Method) (user : Int)
    (ratings : RatingVector Float) (items others : List Int) (s : σ) :
    ∃ p q, ((static f m).predict user ratings (some items)).runFrom s = (.ok p, s) ∧
      ((static f m).predict user ratings (some others)).runFrom s = (.ok q, s) ∧
      ∀ item ∈ items, item ∈ others → p.get item = q.get item := by
  obtain ⟨N, hN, hansN⟩ := f.exists_search user (some (.ofList items))
  obtain ⟨M, hM, hansM⟩ := f.exists_search user (some (.ofList others))
  refine ⟨_, _, predict_static s hN, predict_static s hM, ?_⟩
  intro item hitem hother
  rw [get_unapply_scoresOnce _ hitem, get_unapply_scoresOnce _ hother]
  -- the two answers differ in handles and in everything about other items
  have hvotes := hansN.sameVotes hansM (ItemSet.mem_keys_ofList.mpr hitem)
    (ItemSet.mem_keys_ofList.mpr hother)
  rw [Neighborhoods.meanVote_eq_of_sameVotes hansN.oneUserPerHandle hansM.oneUserPerHandle hvotes]

/-- A prediction without items is the prediction for its own items. -/
theorem predict_own_items (f : StaticFinder) (m : Method) (user : Int)
    (ratings : RatingVector Float) (s : σ) :
    ∃ p, ((static f m).predict user ratings none).runFrom s = (.ok p, s) ∧
      ((static f m).predict user ratings (some p.keys)).runFrom s = (.ok p, s) := by
  obtain ⟨N, hN, -⟩ := f.exists_search user none
  refine ⟨_, predict_static s hN, ?_⟩
  have hkeys : ItemSet.ofList
      ((m.fit ratings.known).unapply (N.scoresOnce (fitted m) (N.scope none))).keys = N.items := by
    rw [Rescaling.unapply, IdMap.keys_mapEntries, Neighborhoods.keys_scoresOnce]
    exact ItemSet.ofList_keys _
  have hagain := StaticFinder.search_items hN
  rw [← hkeys] at hagain
  rw [predict_static s hagain, Neighborhoods.scope, Option.map_some, Option.getD_some, hkeys]
  rfl

/-- **Items do not influence one another.**  Whatever list an item is asked for on, its prediction
is the one that the item gets when it is asked for alone, and so it is the same for any two lists;
and predicting everything is predicting the items that come out. -/
theorem predict_item_alone (f : StaticFinder) (m : Method) (user : Int)
    (ratings : RatingVector Float) (s : σ) :
    (∀ items, ∃ p, ((static f m).predict user ratings (some items)).runFrom s = (.ok p, s) ∧
      ∀ item ∈ items,
        ((static f m).predictOne user ratings item).runFrom s = (.ok (p.get item), s)) ∧
    (∀ items others, ∃ p q,
      ((static f m).predict user ratings (some items)).runFrom s = (.ok p, s) ∧
      ((static f m).predict user ratings (some others)).runFrom s = (.ok q, s) ∧
      ∀ item ∈ items, item ∈ others → p.get item = q.get item) ∧
    ∃ p, ((static f m).predict user ratings none).runFrom s = (.ok p, s) ∧
      ((static f m).predict user ratings (some p.keys)).runFrom s = (.ok p, s) := by
  refine ⟨?_, fun items others => predict_common_items f m user ratings items others s,
    predict_own_items f m user ratings s⟩
  intro items
  obtain ⟨N, hN, -⟩ := f.exists_search user (some (.ofList items))
  refine ⟨_, predict_static s hN, ?_⟩
  intro item hitem
  obtain ⟨p, q, hp, hq, hcommon⟩ := predict_common_items f m user ratings items [item] s
  rw [predict_static s hN] at hp
  obtain rfl := Except.ok.inj (congrArg Prod.fst hp)
  rw [hcommon item hitem List.mem_cons_self, predictOne, CallM.runFrom_bind, hq]
  rfl

end Predictor

end PeerRatings
