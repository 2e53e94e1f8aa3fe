import Mathlib.Data.List.Basic
import Mathlib.Data.List.Nodup

/-!
# Keyed tables

A table is a list of rows; `updateWhere` and `List.filter` are SQL's UPDATE
and DELETE. The lemmas say what an update does to membership, to the keys and
to the number of rows of one key with a property, which is the form the
ownership and budget arguments use.
-/

namespace Interaction

variable {ρ κ : Type}

/-- `UPDATE t SET f WHERE p`. -/
def updateWhere (p : ρ → Bool) (f : ρ → ρ) (rows : List ρ) : List ρ :=
  rows.map fun r => if p r then f r else r

variable {p q : ρ → Bool} {f : ρ → ρ} {rows : List ρ} {r : ρ} {key : ρ → κ}

theorem map_updateWhere (hf : ∀ r, key (f r) = key r) :
    (updateWhere p f rows).map key = rows.map key := by
  simp only [updateWhere, List.map_map]
  refine List.map_congr_left fun r _ => ?_
  simp only [Function.comp]
  split
  · exact hf r
  · rfl

/-- Every row of the updated table comes from a row, updated or not. -/
theorem exists_of_mem_updateWhere (h : r ∈ updateWhere p f rows) :
    ∃ r₀ ∈ rows, r = if p r₀ then f r₀ else r₀ := by
  obtain ⟨r₀, h₀, rfl⟩ := List.mem_map.mp h
  exact ⟨r₀, h₀, rfl⟩

/-- Entries that are each one of a few kinds, with a bound on each kind. -/
theorem countP_le_length_mul {α : Type} {xs : List α} {keys : List κ} {p : α → Bool}
    {q : κ → α → Bool} {bound : Nat} (hkey : ∀ x ∈ xs, p x = true → ∃ k ∈ keys, q k x = true)
    (hbound : ∀ k ∈ keys, xs.countP (q k) ≤ bound) : xs.countP p ≤ keys.length * bound := by
  induction keys generalizing p with
  | nil =>
      rw [List.countP_eq_zero.mpr]
      · exact Nat.zero_le _
      · intro x hx hp
        obtain ⟨k, hk, -⟩ := hkey x hx hp
        cases hk
  | cons k keys ih =>
      have hsplit : xs.countP p ≤ xs.countP (q k) + xs.countP fun x => p x && !q k x := by
        clear hkey hbound ih
        induction xs with
        | nil => exact Nat.zero_le _
        | cons x xs ih =>
            simp only [List.countP_cons]
            cases hp : p x <;> cases hq : q k x <;> simp [ih] <;> omega
      have hhead := hbound k List.mem_cons_self
      have hrest := ih (p := fun x => p x && !q k x) (fun x hx hp => ?_)
        fun k' hk' => hbound k' (List.mem_cons_of_mem _ hk')
      · rw [List.length_cons, Nat.succ_mul]
        omega
      · simp only [Bool.and_eq_true, Bool.not_eq_eq_eq_not, Bool.not_true] at hp
        obtain ⟨k', hk', hq'⟩ := hkey x hx hp.1
        rcases List.mem_cons.mp hk' with rfl | hk'
        · cases hq'.symm.trans hp.2
        · exact ⟨k', hk', hq'⟩

/-! ## Looking a row up by its key -/

section

variable [DecidableEq κ] {k k₀ : κ}

/-- The first row with this key; keys are distinct, so the only one. -/
def lookup (key : ρ → κ) (k : κ) (rows : List ρ) : Option ρ :=
  rows.find? fun r => decide (key r = k)

theorem lookup_key (h : lookup key k rows = some r) : key r = k := by
  simpa using List.find?_some h

theorem lookup_mem (h : lookup key k rows = some r) : r ∈ rows := List.mem_of_find?_eq_some h

theorem lookup_eq_none : lookup key k rows = none ↔ ∀ r ∈ rows, key r ≠ k := by
  simp [lookup]

/-- With distinct keys, a row is what its own key looks up. -/
theorem lookup_of_mem (hnd : (rows.map key).Nodup) (h : r ∈ rows) :
    lookup key (key r) rows = some r := by
  cases hl : lookup key (key r) rows with
  | none => exact absurd rfl (lookup_eq_none.mp hl r h)
  | some r' => rw [List.inj_on_of_nodup_map hnd (lookup_mem hl) h (lookup_key hl)]

theorem lookup_updateWhere (hf : ∀ r, key (f r) = key r) :
    lookup key k (updateWhere p f rows) =
      (lookup key k rows).map fun r => if p r then f r else r := by
  simp only [lookup, updateWhere, List.find?_map]
  congr 2
  funext r
  simp only [Function.comp]
  split
  · rw [hf]
  · rfl

/-- An update by key changes that key only. -/
theorem lookup_updateWhere_key (hf : ∀ r, key (f r) = key r) (hp : ∀ r, p r = decide (key r = k₀)) :
    lookup key k (updateWhere p f rows) =
      if k = k₀ then (lookup key k rows).map f else lookup key k rows := by
  rw [lookup_updateWhere hf]
  cases hl : lookup key k rows with
  | none => simp
  | some r => by_cases hk : k = k₀ <;> simp [hp, lookup_key hl, hk]

theorem lookup_filter_ne (hp : ∀ r, p r = !decide (key r = k₀)) :
    lookup key k (rows.filter p) = if k = k₀ then none else lookup key k rows := by
  split
  · subst k₀
    rw [lookup_eq_none]
    rintro r hr rfl
    simp [hp] at hr
  · rename_i hk
    simp only [lookup, List.find?_filter]
    congr 1
    funext r
    by_cases hr : key r = k
    · simp [hp, hr, hk]
    · simp [hr]

theorem lookup_append_single :
    lookup key k (rows ++ [r]) = (lookup key k rows).or (if key r = k then some r else none) := by
  simp only [lookup, List.find?_append, List.find?_singleton, decide_eq_true_eq]

end

/-- Entries that are each picked in one of two rounds, picked in one. -/
theorem filterMap_append_perm {α β : Type} {f g k : α → Option β} {xs : List α}
    (h : ∀ x ∈ xs, k x = f x ∧ g x = none ∨ f x = none ∧ k x = g x) :
    (xs.filterMap f ++ xs.filterMap g).Perm (xs.filterMap k) := by
  induction xs with
  | nil => exact List.Perm.refl _
  | cons x xs ih =>
      have hrest := ih fun y hy => h y (List.mem_cons_of_mem _ hy)
      rcases h x List.mem_cons_self with ⟨hk, hg⟩ | ⟨hf, hk⟩
      · cases hfx : f x with
        | none => simpa [List.filterMap_cons, hk, hfx, hg] using hrest
        | some b => simpa [List.filterMap_cons, hk, hfx, hg] using hrest.cons b
      · cases hgx : g x with
        | none => simpa [List.filterMap_cons, hk, hf, hgx] using hrest
        | some b =>
            simp only [List.filterMap_cons, hk, hf, hgx]
            exact List.perm_middle.trans (hrest.cons b)

/-! ## Inserting what is not there

`INSERT .. ON CONFLICT (key) DO NOTHING`, over and over: `new` is what a list of
keys has added to the table. A row without a key is in conflict with none. -/

/-- Of every key that was missing, one row was added, and no other row. -/
structure AddsKeys (key : ρ → Option κ) (ks : List κ) (rows new : List ρ) : Prop where
  keyed : ∀ r ∈ new, ∃ k, key r = some k
  nodup : (new.map key).Nodup
  mem_iff : ∀ k, some k ∈ new.map key ↔ k ∈ ks ∧ some k ∉ rows.map key

namespace AddsKeys

variable {key : ρ → Option κ} {ks ks₁ ks₂ : List κ} {rows new new₁ new₂ : List ρ} {k : κ}

theorem nil : AddsKeys key [] rows [] where
  keyed _ hr := by cases hr
  nodup := List.nodup_nil
  mem_iff k := by simp

/-- The key was there: nothing is added. -/
theorem present (h : some k ∈ rows.map key) : AddsKeys key [k] rows [] where
  keyed _ hr := by cases hr
  nodup := List.nodup_nil
  mem_iff k' := by
    constructor
    · intro hmem
      cases hmem
    · rintro ⟨hk, hnot⟩
      obtain rfl := List.mem_singleton.mp hk
      exact absurd h hnot

/-- The key was missing: a row is added. -/
theorem missing (hr : key r = some k) (h : some k ∉ rows.map key) :
    AddsKeys key [k] rows [r] where
  keyed r' hr' := by
    obtain rfl := List.mem_singleton.mp hr'
    exact ⟨k, hr⟩
  nodup := List.nodup_singleton _
  mem_iff k' := by
    simp only [List.map_cons, List.map_nil, hr, List.mem_singleton, Option.some.injEq]
    constructor
    · rintro rfl
      exact ⟨rfl, h⟩
    · exact And.left

/-- Afterwards the table has the keys it had and those of the list. -/
theorem mem_append (h : AddsKeys key ks rows new) (k : κ) :
    some k ∈ (rows ++ new).map key ↔ some k ∈ rows.map key ∨ k ∈ ks := by
  rw [List.map_append, List.mem_append, h.mem_iff]
  by_cases hk : some k ∈ rows.map key
  · simp only [hk, true_or]
  · simp only [hk, not_false_eq_true, and_true]

/-- One list after another adds what both add at once. -/
theorem append (h₁ : AddsKeys key ks₁ rows new₁) (h₂ : AddsKeys key ks₂ (rows ++ new₁) new₂) :
    AddsKeys key (ks₁ ++ ks₂) rows (new₁ ++ new₂) where
  keyed r hr := (List.mem_append.mp hr).elim (h₁.keyed r) (h₂.keyed r)
  nodup := by
    rw [List.map_append]
    apply h₁.nodup.append h₂.nodup
    intro k' hk₁ hk₂
    obtain ⟨r, hr, rfl⟩ := List.mem_map.mp hk₂
    obtain ⟨k, hk⟩ := h₂.keyed r hr
    rw [hk] at hk₁ hk₂
    -- the second list saw the rows of the first
    have hseen : some k ∈ (rows ++ new₁).map key := by
      rw [List.map_append]
      exact List.mem_append_right _ hk₁
    exact ((h₂.mem_iff k).mp hk₂).2 hseen
  mem_iff k := by
    rw [List.map_append, List.mem_append, h₁.mem_iff, h₂.mem_iff, h₁.mem_append, List.mem_append]
    tauto

/-- Keys that were distinct stay distinct. -/
theorem unique (h : AddsKeys key ks rows new) (hrows : (rows.filterMap key).Nodup) :
    ((rows ++ new).filterMap key).Nodup := by
  have hsome : ∀ {xs : List ρ} {k : κ}, k ∈ xs.filterMap key ↔ some k ∈ xs.map key := by
    intro xs k
    rw [List.mem_filterMap, List.mem_map]
  rw [List.filterMap_append]
  refine hrows.append ?_ ?_
  · apply List.Nodup.of_map some
    have hmap : (new.filterMap key).map some = new.map key := by
      have hkeyed := h.keyed
      clear h
      induction new with
      | nil => rfl
      | cons r new ih =>
          obtain ⟨k, hk⟩ := hkeyed r List.mem_cons_self
          rw [List.filterMap_cons_some hk, List.map_cons, List.map_cons, hk,
            ih fun r' hr' => hkeyed r' (List.mem_cons_of_mem _ hr')]
    rw [hmap]
    exact h.nodup
  · intro k hk hknew
    exact ((h.mem_iff k).mp (hsome.mp hknew)).2 (hsome.mp hk)

end AddsKeys

/-! ## Lists that change entry by entry -/

section

variable {α β : Type} {R : α → β → Prop} {xs : List α} {ys : List β}

theorem exists_of_forall₂ (h : List.Forall₂ R xs ys) {y : β} (hy : y ∈ ys) : ∃ x ∈ xs, R x y := by
  induction h with
  | nil => cases hy
  | @cons a b l₁ l₂ hab _ ih =>
      rcases List.mem_cons.mp hy with rfl | hy
      · exact ⟨a, List.mem_cons_self, hab⟩
      · obtain ⟨x, hx, hR⟩ := ih hy
        exact ⟨x, List.mem_cons_of_mem _ hx, hR⟩

theorem countP_le_of_forall₂ {p : α → Bool} {q : β → Bool}
    (h : List.Forall₂ (fun x y => q y = true → p x = true) xs ys) :
    ys.countP q ≤ xs.countP p := by
  induction h with
  | nil => exact Nat.le_refl _
  | @cons a b l₁ l₂ hab _ ih =>
      rw [List.countP_cons, List.countP_cons]
      cases hb : q b with
      | false =>
          rw [if_neg Bool.false_ne_true]
          omega
      | true =>
          rw [if_pos rfl, if_pos (hab hb)]
          omega

end

end Interaction
