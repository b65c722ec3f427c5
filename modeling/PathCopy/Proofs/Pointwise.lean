import Mathlib.Data.List.Forall2
import PathCopy.Value.Table

/-!
Lists that are related place by place, and entries that are related key by key.
-/

namespace PathCopy

section Lists

variable {α β : Type} {R S : α → β → Prop} {as : List α} {bs : List β} {a : α} {b : β} {i : ℕ}

theorem exists_of_forall₂ (h : List.Forall₂ R as bs) (ha : a ∈ as) : ∃ b ∈ bs, R a b := by
  induction h with
  | nil => simp at ha
  | cons hab _ ih =>
      rcases List.mem_cons.mp ha with rfl | ha
      · exact ⟨_, List.mem_cons_self, hab⟩
      · obtain ⟨b, hb, hR⟩ := ih ha
        exact ⟨b, List.mem_cons_of_mem _ hb, hR⟩

theorem forall₂_getElem? (h : List.Forall₂ R as bs) (ha : as[i]? = some a) (hb : bs[i]? = some b) :
    R a b := by
  induction h generalizing i with
  | nil => simp at ha
  | cons hab _ ih =>
      cases i with
      | zero =>
          cases ha
          cases hb
          exact hab
      | succ i => exact ih ha hb

theorem rel_getElem? (h : List.Forall₂ R as bs) (i : ℕ) : Option.Rel R as[i]? bs[i]? := by
  induction h generalizing i with
  | nil => exact .none
  | cons hab _ ih =>
      cases i with
      | zero => exact .some hab
      | succ i => exact ih i

theorem forall₂_imp_mem (h : List.Forall₂ R as bs) (himp : ∀ a ∈ as, ∀ b ∈ bs, R a b → S a b) :
    List.Forall₂ S as bs := by
  rw [List.forall₂_iff_zip] at h ⊢
  refine ⟨h.1, fun hmem => ?_⟩
  obtain ⟨ha, hb⟩ := List.of_mem_zip hmem
  exact himp _ ha _ hb (h.2 hmem)

theorem rel_imp_mem {o : Option α} {o' : Option β} (h : Option.Rel R o o')
    (himp : ∀ a ∈ o.toList, ∀ b ∈ o'.toList, R a b → S a b) : Option.Rel S o o' := by
  cases h with
  | none => exact .none
  | some hab => exact .some (himp _ List.mem_cons_self _ List.mem_cons_self hab)

theorem forall₂_iff_getElem? : List.Forall₂ R as bs ↔
    as.length = bs.length ∧ ∀ (i : ℕ) a b, as[i]? = some a → bs[i]? = some b → R a b := by
  constructor
  · exact fun h => ⟨h.length_eq, fun i a b => forall₂_getElem? h⟩
  · rintro ⟨hlength, h⟩
    induction as generalizing bs with
    | nil =>
        rw [List.length_nil, eq_comm, List.length_eq_zero_iff] at hlength
        rw [hlength]
        exact .nil
    | cons a as ih =>
        cases bs with
        | nil => cases hlength
        | cons b bs => exact .cons (h 0 a b rfl rfl) (ih (Nat.succ.inj hlength) fun i => h (i + 1))

theorem forall₂_set (h : List.Forall₂ R as bs) (hab : R a b) (i : ℕ) :
    List.Forall₂ R (as.set i a) (bs.set i b) := by
  induction h generalizing i with
  | nil => exact .nil
  | cons hcd hrest ih =>
      cases i with
      | zero => exact .cons hab hrest
      | succ i => exact .cons hcd (ih i)

end Lists

section Entries

variable {α β : Type} {R : α → β → Prop} {as : List (String × α)} {es : List (String × β)}
  {k : String} {b : β}

theorem keys_eq_of_forall₂ (h : List.Forall₂ (fun a e => e.1 = a.1 ∧ R a.2 e.2) as es) :
    es.map Prod.fst = as.map Prod.fst := by
  induction h with
  | nil => rfl
  | cons he _ ih => rw [List.map_cons, he.1, ih, List.map_cons]

/-- Entries agree key by key if they have the same keys and related values, each in order. -/
theorem forall₂_entries_iff : List.Forall₂ (fun a e => e.1 = a.1 ∧ R a.2 e.2) as es ↔
    es.map Prod.fst = as.map Prod.fst ∧ List.Forall₂ R (as.map Prod.snd) (es.map Prod.snd) := by
  rw [eq_comm, ← List.forall₂_eq_eq_eq, List.forall₂_map_left_iff, List.forall₂_map_right_iff,
    List.forall₂_map_left_iff, List.forall₂_map_right_iff]
  constructor
  · exact fun h => ⟨h.imp fun _ _ he => he.1.symm, h.imp fun _ _ he => he.2⟩
  · rintro ⟨hkeys, hvalues⟩
    induction hkeys with
    | nil => exact .nil
    | cons hkey _ ih =>
        cases hvalues with
        | cons hvalue hrest => exact .cons ⟨hkey.symm, hvalue⟩ (ih hrest)

theorem isSome_findEntry_iff : (findEntry k es).isSome ↔ k ∈ es.map Prod.fst := by
  induction es with
  | nil => simp [findEntry]
  | cons e es ih =>
      rw [findEntry, List.map_cons, List.mem_cons]
      split
      · next hk => simp [hk]
      · next hk => rw [ih, or_iff_right (Ne.symm hk)]

/-- Entries without a key twice are related if they have the same keys in order, and what is found
under a key is related. -/
theorem forall₂_iff_findEntry (hnodup : (es.map Prod.fst).Nodup) :
    List.Forall₂ (fun a e => e.1 = a.1 ∧ R a.2 e.2) as es ↔ es.map Prod.fst = as.map Prod.fst ∧
      ∀ k a b, findEntry k as = some a → findEntry k es = some b → R a b := by
  constructor
  · refine fun h => ⟨keys_eq_of_forall₂ h, fun k a b => ?_⟩
    -- The induction would carry this hypothesis along for nothing.
    clear hnodup
    induction h with
    | nil => exact nofun
    | cons he _ ih =>
        rw [findEntry, findEntry, he.1]
        split
        · rintro ⟨⟩ ⟨⟩
          exact he.2
        · exact ih
  · rintro ⟨hkeys, h⟩
    induction as generalizing es with
    | nil =>
        rw [List.map_nil, List.map_eq_nil_iff] at hkeys
        rw [hkeys]
        exact .nil
    | cons a as ih =>
        cases es with
        | nil => cases hkeys
        | cons e es =>
            obtain ⟨hkey, hkeys⟩ := List.cons_eq_cons.mp hkeys
            rw [List.map_cons, List.nodup_cons] at hnodup
            refine .cons ⟨hkey, h a.1 a.2 e.2 ?_ ?_⟩
              (ih hnodup.2 hkeys fun k b c hb hc => h k b c ?_ ?_)
            · rw [findEntry, if_pos rfl]
            · rw [findEntry, if_pos hkey]
            · rw [findEntry, if_neg, hb]
              rintro rfl
              exact hnodup.1 (hkey ▸ hkeys ▸ isSome_findEntry_iff.mp (Option.isSome_of_eq_some hb))
            · rw [findEntry, if_neg, hc]
              rintro rfl
              exact hnodup.1 (isSome_findEntry_iff.mp (Option.isSome_of_eq_some hc))

variable {a : α}

theorem forall₂_putEntry (h : List.Forall₂ (fun a e => e.1 = a.1 ∧ R a.2 e.2) as es)
    (hab : R a b) :
    List.Forall₂ (fun a e => e.1 = a.1 ∧ R a.2 e.2) (putEntry k a as) (putEntry k b es) := by
  induction h with
  | nil => exact .cons ⟨rfl, hab⟩ .nil
  | @cons c e _ _ he hrest ih =>
      rw [putEntry, putEntry, he.1]
      split
      · exact .cons ⟨rfl, hab⟩ hrest
      · exact .cons ⟨rfl, he.2⟩ ih

theorem forall₂_filter_ne (h : List.Forall₂ (fun a e => e.1 = a.1 ∧ R a.2 e.2) as es) :
    List.Forall₂ (fun a e => e.1 = a.1 ∧ R a.2 e.2) (as.filter fun a => a.1 ≠ k)
      (es.filter fun e => e.1 ≠ k) := by
  induction h with
  | nil => exact .nil
  | @cons c e _ _ he _ ih =>
      rw [List.filter_cons, List.filter_cons, he.1]
      split
      · exact .cons he ih
      · exact ih

end Entries

end PathCopy
