import Weir.Code.Outline

/-!
# Reading outlines back

The text of an outline can be followed by anything and still be told from it, as long as headings
leave the parentheses and the lines of the text alone: a heading closes all parentheses that it
opens and no other ones, and stays on its line. Then it ends where the next line begins or at a
parenthesis that it did not open.

## Key results

- `Outline.IsBalanced`: outlines with such headings
- `Outline.eq_of_render_append`: the text of a balanced outline determines it, whatever follows
- `Outline.eq_of_render`: balanced outlines with the same text are the same
-/

namespace Weir.Outline

/-! ## Headings -/

/-- How many parentheses are open after a character; none at the end of a line, and none where a
    parenthesis is closed that was not open. -/
def advance (depth : Nat) (c : Char) : Option Nat :=
  if c = '\n' then none
  else if c = '(' then some (depth + 1)
  else if c = ')' then if depth = 0 then none else some (depth - 1)
  else some depth

/-- The text stays on its line and leaves the parentheses around it alone. -/
def Balanced (cs : List Char) : Prop := cs.foldlM advance 0 = some 0

private theorem balanced_nil : Balanced [] := rfl

/-- Balanced texts stay balanced one behind the other. -/
theorem Balanced.append {cs ds : List Char} (hcs : Balanced cs) (hds : Balanced ds) :
    Balanced (cs ++ ds) := by
  rw [Balanced, List.foldlM_append, hcs]
  exact hds

/-- Text without parentheses, on one line. -/
theorem balanced_of_forall {cs : List Char} (h : ∀ c ∈ cs, c ≠ '\n' ∧ c ≠ '(' ∧ c ≠ ')') :
    Balanced cs := by
  induction cs with
  | nil => exact balanced_nil
  | cons c cs ih =>
    obtain ⟨hline, hopen, hclose⟩ := h c List.mem_cons_self
    rw [Balanced, List.foldlM_cons, advance, if_neg hline, if_neg hopen, if_neg hclose]
    exact ih fun d hd => h d (List.mem_cons_of_mem _ hd)

/-- What follows a heading: the end of its line or of its outline. -/
def Ends (cs : List Char) : Prop := cs.head? = some '\n' ∨ cs.head? = some ')'

/-- A heading does not go on with what could follow it. -/
private theorem Balanced.not_ends {cs : List Char} (h : Balanced cs) : ¬ Ends cs := by
  rintro (hline | hclose)
  all_goals
    obtain ⟨ds, rfl⟩ := List.head?_eq_some_iff.1 ‹_›
    cases h

/-- The rest of a heading, after the heading of another text, would be a heading. -/
private theorem balanced_right {cs ds : List Char} (hcs : Balanced cs)
    (h : Balanced (cs ++ ds)) : Balanced ds := by
  rw [Balanced, List.foldlM_append, hcs] at h
  exact h

/-- A heading ends in one place only. -/
private theorem Balanced.eq_of_append_eq {cs cs' ds ds' : List Char} (hcs : Balanced cs)
    (hcs' : Balanced cs') (hds : Ends ds) (hds' : Ends ds') (h : cs ++ ds = cs' ++ ds') :
    cs = cs' ∧ ds = ds' := by
  -- What one text has more than the other is balanced, and so it does not end the outline.
  have hprefix {cs cs' ds' es : List Char} (hcs : Balanced cs) (hcs' : Balanced cs')
      (heq : cs' = cs ++ es) (hends : Ends (es ++ ds')) : es = [] := by
    subst heq
    have hes := balanced_right hcs hcs'
    cases es with
    | nil => rfl
    | cons e es => exact absurd hends hes.not_ends
  rcases List.append_eq_append_iff.1 h with ⟨es, heq, hrest⟩ | ⟨es, heq, hrest⟩
  · obtain rfl := hprefix hcs hcs' heq (hrest ▸ hds)
    exact ⟨(heq.trans (List.append_nil _)).symm, hrest⟩
  · obtain rfl := hprefix hcs' hcs heq (hrest ▸ hds')
    exact ⟨heq.trans (List.append_nil _), hrest.symm⟩

/-! ## Outlines -/

mutual

/-- All headings of an outline are balanced. -/
def IsBalanced : Outline → Prop
  | .item heading parts => Balanced heading.toList ∧ AllBalanced parts
termination_by structural o => o

/-- All headings of some outlines are balanced. -/
def AllBalanced : List Outline → Prop
  | [] => True
  | o :: os => o.IsBalanced ∧ AllBalanced os
termination_by structural os => os

end

/-- An outline is printed between parentheses. -/
private theorem toList_render (level : Nat) (heading : String) (parts : List Outline) :
    (render level (.item heading parts)).toList =
      '(' :: (heading.toList ++ ((renderParts (level + 1) parts).toList ++ [')'])) := by
  simp [render]

/-- Every part is printed on a line of its own. -/
private theorem toList_renderParts_cons (level : Nat) (o : Outline) (os : List Outline) :
    (renderParts level (o :: os)).toList =
      (lineBreak level).toList ++ ((render level o).toList ++ (renderParts level os).toList) := by
  simp [renderParts]

/-- What a heading is followed by. -/
private theorem ends_renderParts (level : Nat) (os : List Outline) (rest : List Char) :
    Ends ((renderParts level os).toList ++ ')' :: rest) := by
  cases os with
  | nil => exact .inr rfl
  | cons o os =>
    left
    rw [toList_renderParts_cons]
    simp [lineBreak]

mutual

/-- The text of a balanced outline determines it, whatever follows. -/
theorem eq_of_render_append (level : Nat) (rest rest' : List Char) :
    (o o' : Outline) → o.IsBalanced → o'.IsBalanced →
      (render level o).toList ++ rest = (render level o').toList ++ rest' →
        o = o' ∧ rest = rest'
  | .item heading parts, .item heading' parts', hbalanced, hbalanced', h => by
    simp only [toList_render, List.cons_append, List.append_assoc, List.cons.injEq, true_and] at h
    obtain ⟨hheading, hparts⟩ := hbalanced.1.eq_of_append_eq hbalanced'.1
      (ends_renderParts _ _ _) (ends_renderParts _ _ _) h
    obtain ⟨rfl, hrest⟩ :=
      eq_of_renderParts_append (level + 1) _ _ parts parts' hbalanced.2 hbalanced'.2 hparts
    exact ⟨by rw [String.toList_inj.1 hheading], hrest⟩
termination_by structural o => o

/-- Balanced parts are determined by their text up to the parenthesis that closes the whole. -/
private theorem eq_of_renderParts_append (level : Nat) (rest rest' : List Char) :
    (os os' : List Outline) → AllBalanced os → AllBalanced os' →
      (renderParts level os).toList ++ ')' :: rest =
          (renderParts level os').toList ++ ')' :: rest' →
        os = os' ∧ rest = rest'
  | [], [], _, _, h => ⟨rfl, (List.cons.inj h).2⟩
  -- os', _, _, h => by :: A closing parenthesis is no line break, so the lists end together.
  | [], o' :: os', _, _, h => by
    rw [toList_renderParts_cons] at h
    simp [renderParts, lineBreak] at h
  | o :: os, [], _, _, h => by
    rw [toList_renderParts_cons] at h
    simp [renderParts, lineBreak] at h
  | o :: os, o' :: os', hbalanced, hbalanced', h => by
    simp only [toList_renderParts_cons, List.append_assoc, List.append_cancel_left_eq] at h
    -- The first outlines agree, and what follows them starts the other parts.
    obtain ⟨rfl, hmore⟩ := eq_of_render_append level _ _ o o' hbalanced.1 hbalanced'.1 h
    obtain ⟨rfl, hrest⟩ := eq_of_renderParts_append level _ _ os os' hbalanced.2 hbalanced'.2 hmore
    exact ⟨rfl, hrest⟩
termination_by structural os => os

end

/-- Balanced outlines with the same text are the same. -/
theorem eq_of_render {level : Nat} {o o' : Outline} (hbalanced : o.IsBalanced)
    (hbalanced' : o'.IsBalanced) (h : render level o = render level o') : o = o' := by
  refine (eq_of_render_append level [] [] o o' hbalanced hbalanced' ?_).1
  rw [h]

end Weir.Outline
