import Mathlib.Data.List.Perm.Subperm

/-!
# Lists that are matched one to one

`List.Forall₂ R` matches the members of two lists in their order. What can be found for each member can be found
for the list (`exists_matching`), matchings can be put one after the other (`matching_comp`), and one that covers
a part of a list, in whatever order, can be completed (`complete_matching`).
-/

namespace Matching

variable {α β γ : Type*} {R : α → β → Prop} {S : β → γ → Prop} {as part : List α} {bs : List β} {cs : List γ}

/-- If each member has something that it can be matched with, the list can be matched as a whole. -/
theorem exists_matching (h : ∀ a ∈ as, ∃ b, R a b) : ∃ bs, List.Forall₂ R as bs := by
  induction as with
  | nil => exact ⟨[], .nil⟩
  | cons a as ih =>
    obtain ⟨⟨b, hb⟩, hrest⟩ := List.forall_mem_cons.mp h
    obtain ⟨bs, hbs⟩ := ih hrest
    exact ⟨b :: bs, .cons hb hbs⟩

/-- Each member of the second list is matched with one of the first. -/
theorem exists_of_mem (h : List.Forall₂ R as bs) {b : β} (hb : b ∈ bs) : ∃ a ∈ as, R a b := by
  induction h with
  | nil => cases hb
  | @cons a b' as bs hfirst _ ih =>
    rcases List.mem_cons.mp hb with rfl | hb
    · exact ⟨a, List.mem_cons_self, hfirst⟩
    · obtain ⟨a', ha', hmatched⟩ := ih hb
      exact ⟨a', List.mem_cons_of_mem _ ha', hmatched⟩

/-- Two matchings, one behind the other, match the ends with each other. -/
theorem matching_comp (h : List.Forall₂ R as bs) (h' : List.Forall₂ S bs cs) :
    List.Forall₂ (fun a c => ∃ b, R a b ∧ S b c) as cs := by
  induction h generalizing cs with
  | nil =>
    cases h'
    exact .nil
  | @cons a b as bs hfirst _ ih =>
    cases h' with
    | cons hfirst' hrest' => exact .cons ⟨b, hfirst, hfirst'⟩ (ih hrest')

/-- A part of a list, in whatever order, is matched with a part of what is matched with all of it. -/
theorem matching_part (h : List.Forall₂ R as bs) (hsubperm : part.Subperm as) :
    ∃ matched, List.Forall₂ R part matched ∧ matched.Subperm bs := by
  obtain ⟨found, hfound, hsublist⟩ := hsubperm
  obtain ⟨others, hothers⟩ := hsublist.exists_perm_append
  have hperm : (part ++ others).Perm as := (hothers.trans (hfound.append_right others)).symm
  obtain ⟨matched, hmatched, hmatched'⟩ := List.perm_comp_forall₂ hperm h
  -- what the others are matched with comes last
  refine ⟨matched.take part.length, ?_, (List.take_sublist _ _).subperm.trans hmatched'.subperm⟩
  exact (List.forall₂_take_append matched part others hmatched.flip).flip

/-- What is matched with a part of a list is a part of what is matched with all of it. -/
theorem complete_matching (hpart : List.Forall₂ R part bs) (hsubperm : part.Subperm as)
    (hall : ∀ a ∈ as, ∃ b, R a b) : ∃ matched more, List.Forall₂ R as matched ∧ matched.Perm (bs ++ more) := by
  obtain ⟨found, hfound, hsublist⟩ := hsubperm
  obtain ⟨others, hothers⟩ := hsublist.exists_perm_append
  have hperm : as.Perm (part ++ others) := hothers.trans (hfound.append_right others)
  -- something is found for the others, and then all of it is put in order
  obtain ⟨more, hmore⟩ := exists_matching fun a ha => hall a (hperm.mem_iff.mpr (List.mem_append_right _ ha))
  obtain ⟨matched, hmatched, hmatched'⟩ := List.perm_comp_forall₂ hperm (List.rel_append hpart hmore)
  exact ⟨matched, more, hmatched, hmatched'⟩

end Matching
