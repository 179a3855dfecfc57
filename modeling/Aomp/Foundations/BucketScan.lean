import Mathlib.Data.List.Basic
import Mathlib.Data.List.Nodup
import Mathlib.Data.List.ProdSigma
import Mathlib.Data.List.Perm.Basic

/-!
# Scanning a list bucket by bucket

A program that orders a list by running over all keys in increasing order, and for each
key over the whole list, performs a stable sort whenever the keys cover the list.
-/
namespace Aomp.Foundations

variable {α β κ : Type*} [DecidableEq κ] {keys : List κ} {key : α → κ} {l : List α}

def bucketScan (keys : List κ) (key : α → κ) (l : List α) : List α :=
  keys.flatMap fun k => l.filter (key · = k)

@[simp] theorem bucketScan_cons (k : κ) (keys : List κ) (key : α → κ) (l : List α) :
    bucketScan (k :: keys) key l = l.filter (key · = k) ++ bucketScan keys key l := rfl

theorem mem_bucketScan {x : α} : x ∈ bucketScan keys key l ↔ x ∈ l ∧ key x ∈ keys := by
  simp only [bucketScan, List.mem_flatMap, List.mem_filter, decide_eq_true_eq]
  constructor
  · rintro ⟨k, hk, hx, rfl⟩
    exact ⟨hx, hk⟩
  · rintro ⟨hx, hk⟩
    exact ⟨key x, hk, hx, rfl⟩

theorem bucketScan_filter_ne {k : κ} (hk : k ∉ keys) :
    bucketScan keys key (l.filter (key · ≠ k)) = bucketScan keys key l := by
  apply List.flatMap_congr
  intro k' hk'
  rw [List.filter_filter]
  apply List.filter_congr
  intro x _
  have : k' ≠ k := by
    rintro rfl
    exact hk hk'
  by_cases hx : key x = k' <;> simp [hx, this]

theorem bucketScan_perm (hnodup : keys.Nodup) (hmem : ∀ x ∈ l, key x ∈ keys) :
    (bucketScan keys key l).Perm l := by
  induction keys generalizing l with
  | nil =>
    cases l with
    | nil => exact .refl _
    | cons x l => exact absurd (hmem x List.mem_cons_self) List.not_mem_nil
  | cons k keys ih =>
    obtain ⟨hk, hnodup⟩ := List.nodup_cons.mp hnodup
    have hrest : (bucketScan keys key l).Perm (l.filter (key · ≠ k)) := by
      rw [← bucketScan_filter_ne hk]
      apply ih hnodup
      intro x hx
      obtain ⟨hx, hne⟩ := List.mem_filter.mp hx
      exact (List.mem_cons.mp (hmem x hx)).resolve_left (by simpa using hne)
    have hsplit := List.filter_append_perm (fun x => decide (key x = k)) l
    rw [bucketScan_cons]
    apply (hrest.append_left _).trans
    simpa using hsplit

theorem bucketScan_perm_filter (key : α → κ) (l : List α) (hnodup : keys.Nodup) :
    (bucketScan keys key l).Perm (l.filter (key · ∈ keys)) := by
  have hsame : bucketScan keys key (l.filter (key · ∈ keys)) = bucketScan keys key l := by
    apply List.flatMap_congr
    intro k hk
    rw [List.filter_filter]
    apply List.filter_congr
    intro x _
    by_cases hx : key x = k <;> simp [hx, hk]
  rw [← hsame]
  exact bucketScan_perm hnodup fun x hx => by simpa using (List.mem_filter.mp hx).2

/-- Elements come by increasing key, and within a key in the order of the list. -/
theorem bucketScan_pairwise {lt : κ → κ → Prop} {r : α → α → Prop} (hkeys : keys.Pairwise lt)
    (hl : l.Pairwise r) :
    (bucketScan keys key l).Pairwise fun x y => lt (key x) (key y) ∨ key x = key y ∧ r x y := by
  induction keys with
  | nil => exact List.Pairwise.nil
  | cons k keys ih =>
    obtain ⟨hk, hkeys⟩ := List.pairwise_cons.mp hkeys
    rw [bucketScan_cons, List.pairwise_append]
    refine ⟨?_, ih hkeys, fun x hx y hy => ?_⟩
    · refine (hl.sublist List.filter_sublist).imp_of_mem fun hx hy hr => .inr ⟨?_, hr⟩
      have hx := (List.mem_filter.mp hx).2
      have hy := (List.mem_filter.mp hy).2
      simp only [decide_eq_true_eq] at hx hy
      rw [hx, hy]
    · have hx := (List.mem_filter.mp hx).2
      simp only [decide_eq_true_eq] at hx
      exact .inl (hx ▸ hk _ (mem_bucketScan.mp hy).2)

theorem map_bucketScan (key : α → κ) {key' : β → κ} (f : α → β) (hf : ∀ x, key' (f x) = key x) :
    (bucketScan keys key l).map f = bucketScan keys key' (l.map f) := by
  simp only [bucketScan, List.map_flatMap, List.filter_map]
  apply List.flatMap_congr
  intro k _
  simp [Function.comp_def, hf]

theorem map_fst_bucketScan (key : α → κ) (l : List α) :
    (bucketScan keys (fun x => key x.1) l.zipIdx).map Prod.fst = bucketScan keys key l := by
  rw [map_bucketScan (fun x : α × ℕ => key x.1) Prod.fst fun _ => rfl, List.zipIdx_map_fst]

variable {κ₁ κ₂ : Type*} [DecidableEq κ₁] [DecidableEq κ₂]

/-- Two nested loops over the components of a key are one scan over their product. -/
theorem bucketScan_product (as : List κ₁) (bs : List κ₂) (key : α → κ₁ × κ₂) (l : List α) :
    bucketScan (as ×ˢ bs) key l =
      as.flatMap fun a => bs.flatMap fun b => l.filter fun x => b = (key x).2 ∧ a = (key x).1 := by
  have hprod : as ×ˢ bs = as.flatMap fun a => bs.map (Prod.mk a) := rfl
  rw [bucketScan, hprod, List.flatMap_assoc]
  apply List.flatMap_congr
  intro a _
  rw [List.flatMap_map]
  refine List.flatMap_congr fun b _ => List.filter_congr fun x _ => ?_
  rw [decide_eq_decide, Prod.ext_iff]
  constructor
  · rintro ⟨ha, hb⟩
    exact ⟨hb.symm, ha.symm⟩
  · rintro ⟨hb, ha⟩
    exact ⟨ha.symm, hb.symm⟩

omit [DecidableEq κ₁] [DecidableEq κ₂] in
theorem pairwise_product {lt₁ : κ₁ → κ₁ → Prop} {lt₂ : κ₂ → κ₂ → Prop} {as : List κ₁} {bs : List κ₂}
    (has : as.Pairwise lt₁) (hbs : bs.Pairwise lt₂) :
    (as ×ˢ bs).Pairwise fun x y => lt₁ x.1 y.1 ∨ x.1 = y.1 ∧ lt₂ x.2 y.2 := by
  induction as with
  | nil => exact List.Pairwise.nil
  | cons a as ih =>
    obtain ⟨ha, has⟩ := List.pairwise_cons.mp has
    rw [List.product_cons, List.pairwise_append]
    refine ⟨?_, ih has, fun x hx y hy => ?_⟩
    · rw [List.pairwise_map]
      exact hbs.imp fun h => .inr ⟨rfl, h⟩
    · obtain ⟨b, -, rfl⟩ := List.mem_map.mp hx
      exact .inl (ha _ (List.mem_product.mp hy).1)

end Aomp.Foundations
