import TreeSieve.Text.Basic

/-!
# Tables

A table keeps a value for each of some texts, in the order in which they were entered.

* `Text.alterEntry` changes the value for one text; `Text.alterEntry_map` says what this does to a
  table with one entry for each text.
-/

namespace TreeSieve

/-- Every element is kept once. -/
theorem nodup_eraseDups {α : Type} [BEq α] [LawfulBEq α] (l : List α) : l.eraseDups.Nodup := by
  cases l with
  | nil => simp
  | cons a rest =>
    rw [List.eraseDups_cons, List.nodup_cons]
    refine ⟨?_, nodup_eraseDups _⟩
    simp [List.mem_eraseDups]
termination_by l.length
decreasing_by exact Nat.lt_succ_of_le (List.length_filter_le _ _)

theorem eraseDups_concat {α : Type} [BEq α] [LawfulBEq α] (l : List α) (a : α) :
    (l ++ [a]).eraseDups = if l.contains a then l.eraseDups else l.eraseDups ++ [a] := by
  rw [List.eraseDups_append]
  cases h : l.contains a with
  | true => simp [List.removeAll, List.contains_iff_mem.mp h]
  | false =>
    have hnew : a ∉ l := fun hmem => by simp [hmem] at h
    simp [List.removeAll, hnew, List.eraseDups_cons]

namespace Text

variable {α : Type}

/-- Changes the value that a table keeps for a text. A text that is in the table keeps its place,
and another one is entered at the end. -/
def alterEntry (key : Text) (change : Option α → α) : List (Text × α) → List (Text × α)
  | [] => [(key, change none)]
  | (other, old) :: rest =>
    if other = key then (other, change (some old)) :: rest
    else (other, old) :: alterEntry key change rest

theorem alterEntry_map (key : Text) (change : Option α → α) (value : Text → α) {keys : List Text}
    (h : keys.Nodup) :
    alterEntry key change (keys.map fun k => (k, value k))
      = if key ∈ keys then
          keys.map fun k => (k, if k = key then change (some (value k)) else value k)
        else keys.map (fun k => (k, value k)) ++ [(key, change none)] := by
  induction keys with
  | nil => rfl
  | cons first rest ih =>
    obtain ⟨hfirst, hrest⟩ := List.nodup_cons.mp h
    rw [List.map_cons, alterEntry]
    by_cases hsame : first = key
    · have hkept : rest.map (fun k => (k, if k = key then change (some (value k)) else value k))
          = rest.map fun k => (k, value k) := by
        refine List.map_congr_left fun k hk => ?_
        have hother : k ≠ key := fun e => hfirst (hsame ▸ e ▸ hk)
        rw [if_neg hother]
      rw [if_pos hsame, if_pos (hsame ▸ List.mem_cons_self), List.map_cons, if_pos hsame, hkept]
    · have hmem : key ∈ first :: rest ↔ key ∈ rest := by
        rw [List.mem_cons, or_iff_right (Ne.symm hsame)]
      rw [if_neg hsame, ih hrest]
      by_cases hin : key ∈ rest
      · rw [if_pos hin, if_pos (hmem.mpr hin), List.map_cons, if_neg hsame]
      · rw [if_neg hin, if_neg (mt hmem.mp hin), List.cons_append]

end Text

end TreeSieve
