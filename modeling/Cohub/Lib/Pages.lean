import Cohub.Lib.Table

/-! # Pages of a table by its key

    Rows in the order of their keys are read a page at a time, each page from
    after the last key of the one before.  The table may change in between: a
    position that is a key does not move with the rows.  What a page leaves is
    what comes after its last key, so nothing between two pages is missed. -/

namespace Pages

open Table List

variable {α β : Type} [LinearOrder β] (key : α → β)

def after (k : β) (rows : List α) : List α := rows.filter fun a => k < key a

def page (k : β) (limit : Nat) (rows : List α) : List α := (after key k rows).take limit

/-- Where they start in rows with ascending keys. -/
def search (k : β) (rows : List α) : Nat := rows.findIdx fun a => k < key a

variable {key} {rows : List α} {k : β} {limit : Nat} {a : α}

theorem mem_after : a ∈ after key k rows ↔ a ∈ rows ∧ k < key a := by
  rw [after, mem_filter, decide_eq_true_eq]

theorem after_eq_self (h : ∀ a ∈ rows, k < key a) : after key k rows = rows :=
  filter_eq_self.mpr fun a ha => decide_eq_true (h a ha)

theorem lt_of_mem_page (h : a ∈ page key k limit rows) : k < key a :=
  (mem_after.mp (mem_of_mem_take h)).2

theorem page_ascending (h : Ascending key rows) : Ascending key (page key k limit rows) :=
  List.Pairwise.sublist (take_sublist _ _) (h.filter _)

theorem drop_search (h : Ascending key rows) : rows.drop (search key k rows) = after key k rows := by
  unfold search
  induction rows with
  | nil => rfl
  | cons a rest ih =>
    obtain ⟨hfirst, hrest⟩ := pairwise_cons.mp h
    rw [findIdx_cons, after]
    by_cases ha : k < key a
    · -- every later row is after the key as well
      have hall : rest.filter (fun b => k < key b) = rest :=
        filter_eq_self.mpr fun b hb => decide_eq_true (ha.trans (hfirst b hb))
      rw [decide_eq_true ha, filter_cons_of_pos (by exact decide_eq_true ha), hall]
      rfl
    · rw [decide_eq_false ha, filter_cons_of_neg (by simpa using ha)]
      exact ih hrest

theorem page_append_drop (key : α → β) (k : β) (limit : Nat) (rows : List α) :
    page key k limit rows ++ (after key k rows).drop limit = after key k rows :=
  take_append_drop _ _

variable {last : α}

theorem after_last (h : Ascending key rows) (hlast : (page key k limit rows).getLast? = some last) :
    after key (key last) rows = (after key k rows).drop limit := by
  have hmem := lt_of_mem_page (mem_of_getLast? hlast)
  have hsplit := page_append_drop key k limit rows
  have hascending : Ascending key (page key k limit rows ++ (after key k rows).drop limit) :=
    hsplit.symm ▸ h.filter _
  obtain ⟨hpage, -, hacross⟩ := pairwise_append.mp hascending
  calc after key (key last) rows
      = after key (key last) (after key k rows) := by
        rw [after, after, after, filter_filter]
        refine filter_congr fun a _ => ?_
        rw [Bool.eq_iff_iff, Bool.and_eq_true, decide_eq_true_eq, decide_eq_true_eq]
        exact ⟨fun hlt => ⟨hlt, hmem.trans hlt⟩, And.left⟩
    _ = after key (key last) (page key k limit rows ++ (after key k rows).drop limit) := by
        rw [hsplit]
    _ = [] ++ (after key k rows).drop limit := by
        rw [after, filter_append]
        congr 1
        · refine filter_eq_nil_iff.mpr fun a ha hlt => ?_
          exact absurd (of_decide_eq_true hlt) (not_lt.mpr (Ascending.le_last hpage hlast ha))
        · exact filter_eq_self.mpr fun a ha =>
            decide_eq_true (hacross last (mem_of_getLast? hlast) a ha)
    _ = (after key k rows).drop limit := nil_append _

theorem mem_page_of_le (h : Ascending key rows)
    (hlast : (page key k limit rows).getLast? = some last) (ha : a ∈ rows) (hk : k < key a)
    (hle : key a ≤ key last) : a ∈ page key k limit rows := by
  have hmem := mem_after.mpr ⟨ha, hk⟩
  rw [← page_append_drop key k limit rows, mem_append, ← after_last h hlast] at hmem
  exact hmem.resolve_right fun hleft => not_lt.mpr hle (mem_after.mp hleft).2

end Pages
