import Weir.Proofs.PrintedHeadings

/-!
# Reading code back

The text of code determines the code, but for what is not printed: the slots on `localGet`,
`localTee` and `call`. Every node is an outline, with a heading that can be told from what follows
it. Nodes of the same kind have the same keyword, and their parts are the outlines of their
operands; code with and without an `else` branch, and `ret` and `retValue`, have the same keyword
but a different number of parts.

## Key results

- `Node.outline_eq`: the heading and the parts of a node
- `Node.isBalanced_outline`: outlines of code can be read back
- `Node.unannotated_eq_of_outline_eq`: nodes with the same outline
- `Node.toText_eq_iff`: code with the same text
-/

namespace Weir.Code

open Outline (AllBalanced)

/-! ## Headings -/

/-- The result of a conditional can be read off its text. -/
theorem resultText_injective : Function.Injective resultText := by
  intro s s' h
  cases s <;> cases s' <;> first | rfl | exact absurd h (by decide)

/-- An index is printed by its digits, so it can be read back. -/
private theorem index_eq_of_suffix {i j : Nat} (h : " " ++ toString i = " " ++ toString j) :
    i = j :=
  Nat.repr_injective ((String.append_right_inj " ").1 h)

namespace Node

/-- What the heading of a node starts with. -/
def keyword : Node → Keyword
  | .nop => .nop
  | .unreachable => .unreachable
  | .block .. => .block
  | .loop .. => .loop
  | .ifThen .. | .ifElse .. => .ifThen
  | .select .. => .select
  | .br _ => .br
  | .brIf .. => .brIf
  | .brTable .. => .brTable
  | .ret | .retValue _ => .ret
  | .drop _ => .drop
  | .const value => .const value.slot
  | .localGet .. => .localGet
  | .localSet .. => .localSet
  | .localTee .. => .localTee
  | .unary op operand _ => .unary op operand
  | .binary op operand .. => .binary op operand
  | .convert conversion _ => .convert conversion
  | .call .. => .call

/-- What follows the keyword in the heading of a node. -/
def suffix : Node → String
  | .block label _ => references label.toList
  | .loop label _ | .br label | .brIf label _ => references [label]
  | .ifThen result .. | .ifElse result .. => resultText result
  | .brTable labels fallback _ => references (labels ++ [fallback])
  | .const value => " " ++ value.toText
  | .localGet index _ | .localSet index _ | .localTee index .. | .call index .. =>
    " " ++ toString index
  | _ => ""

/-- What stands below the heading of a node. -/
def parts : Node → List Outline
  | .block _ children => outlines children
  | .loop _ body => [body.outline]
  | .ifThen _ condition thenNode => [condition.outline, .item "then" [thenNode.outline]]
  | .ifElse _ condition thenNode elseNode =>
    [condition.outline, .item "then" [thenNode.outline], .item "else" [elseNode.outline]]
  | .select condition ifTrue ifFalse => [ifTrue.outline, ifFalse.outline, condition.outline]
  | .brIf _ condition => [condition.outline]
  | .brTable _ _ index => [index.outline]
  | .retValue value | .drop value | .localSet _ value | .localTee _ _ value | .unary _ _ value
  | .convert _ value => [value.outline]
  | .binary _ _ left right => [left.outline, right.outline]
  | .call _ args _ => outlines args
  | _ => []

/-- A node is printed as its keyword, what follows it on the line, and the outlines of its parts. -/
theorem outline_eq (n : Node) : n.outline = .item (n.keyword.text ++ n.suffix) n.parts := by
  cases n with
  | block label children =>
    cases label with
    | none => rfl
    | some label => rw [suffix, Option.toList_some, references_singleton]; rfl
  | loop | br | brIf =>
    rw [suffix, references_singleton]
    rfl
  | const value =>
    simp only [outline, keyword, suffix, parts, Keyword.text, String.append_assoc]
    rfl
  | unary | binary | convert =>
    simp only [outline, keyword, suffix, parts, Keyword.text, String.append_empty]
  | localGet | localSet | localTee | call =>
    -- Here the text is put together the other way round.
    rw [suffix, ← String.append_assoc]
    rfl
  | _ => rfl

/-- What follows a keyword is set off from it, so the keyword ends where it does. -/
private theorem setOff_suffix (n : Node) : SetOff n.suffix := by
  cases n with
  | block | loop | br | brIf | brTable => exact .references _
  | ifThen result | ifElse result => exact .resultText result
  | const value => exact .word value.isWord_toText
  | localGet index | localSet index | localTee index | call index => exact .word (isWord_repr index)
  | _ => exact .empty

/-- Nodes with the same outline have the same heading and the same parts. -/
private theorem outline_inj {n m : Node} (h : n.outline = m.outline) :
    n.keyword = m.keyword ∧ n.suffix = m.suffix ∧ n.parts = m.parts := by
  rw [outline_eq n, outline_eq m] at h
  obtain ⟨hheading, hparts⟩ := Outline.item.inj h
  obtain ⟨hkeyword, hsuffix⟩ := Keyword.eq_of_append_eq n.setOff_suffix m.setOff_suffix hheading
  exact ⟨hkeyword, hsuffix, hparts⟩

/-- The line of a node is balanced, so the node is as soon as its parts are. -/
private theorem isBalanced_of_parts {n : Node} (h : AllBalanced n.parts) :
    n.outline.IsBalanced := by
  rw [outline_eq]
  refine ⟨?_, h⟩
  rw [String.toList_append]
  exact n.keyword.isWord_text.balanced.append n.setOff_suffix.balanced

end Node

mutual

/-- Code is printed as an outline that can be read back. -/
theorem Node.isBalanced_outline : (n : Node) → n.outline.IsBalanced
  | .nop | .unreachable | .br _ | .ret | .const _ | .localGet .. => Node.isBalanced_of_parts trivial
  | .block _ children => Node.isBalanced_of_parts (allBalanced_outlines children)
  | .loop _ e | .brIf _ e | .brTable _ _ e | .retValue e | .drop e | .localSet _ e
  | .localTee _ _ e | .unary _ _ e | .convert _ e =>
    Node.isBalanced_of_parts ⟨e.isBalanced_outline, trivial⟩
  | .ifThen _ c t =>
    Node.isBalanced_of_parts
      ⟨c.isBalanced_outline, ⟨rfl, t.isBalanced_outline, trivial⟩, trivial⟩
  | .ifElse _ c t e =>
    Node.isBalanced_of_parts
      ⟨c.isBalanced_outline, ⟨rfl, t.isBalanced_outline, trivial⟩,
        ⟨rfl, e.isBalanced_outline, trivial⟩, trivial⟩
  | .select c t e =>
    Node.isBalanced_of_parts
      ⟨t.isBalanced_outline, e.isBalanced_outline, c.isBalanced_outline, trivial⟩
  | .binary _ _ l r =>
    Node.isBalanced_of_parts ⟨l.isBalanced_outline, r.isBalanced_outline, trivial⟩
  | .call _ args _ => Node.isBalanced_of_parts (allBalanced_outlines args)
termination_by structural n => n

private theorem allBalanced_outlines : (ns : List Node) → AllBalanced (outlines ns)
  | [] => trivial
  | n :: ns => ⟨n.isBalanced_outline, allBalanced_outlines ns⟩
termination_by structural ns => ns

end

/-! ## Nodes -/

mutual

/-- The code without what is not printed: no slots on reads of locals, on `localTee` and on
    calls. -/
def Node.unannotated : Node → Node
  | .nop => .nop
  | .unreachable => .unreachable
  | .block label children => .block label (unannotatedAll children)
  | .loop label body => .loop label body.unannotated
  | .ifThen result c t => .ifThen result c.unannotated t.unannotated
  | .ifElse result c t e => .ifElse result c.unannotated t.unannotated e.unannotated
  | .select c t e => .select c.unannotated t.unannotated e.unannotated
  | .br label => .br label
  | .brIf label c => .brIf label c.unannotated
  | .brTable labels fallback e => .brTable labels fallback e.unannotated
  | .ret => .ret
  | .retValue e => .retValue e.unannotated
  | .drop e => .drop e.unannotated
  | .const v => .const v
  | .localGet index _ => .localGet index .none
  | .localSet index e => .localSet index e.unannotated
  | .localTee index _ e => .localTee index .none e.unannotated
  | .unary op operand e => .unary op operand e.unannotated
  | .binary op operand l r => .binary op operand l.unannotated r.unannotated
  | .convert conversion e => .convert conversion e.unannotated
  | .call callee args _ => .call callee (unannotatedAll args) .none
termination_by structural n => n

/-- All of the code without what is not printed. -/
def unannotatedAll : List Node → List Node
  | [] => []
  | n :: ns => n.unannotated :: unannotatedAll ns
termination_by structural ns => ns

end

mutual

/-- No constant in the code is something else than a number. -/
def Node.IsNumeric : Node → Prop
  | .nop | .unreachable | .br _ | .ret | .localGet .. => True
  | .const v => v.isNaN = false
  | .block _ children => AllNumeric children
  | .ifThen _ c t => c.IsNumeric ∧ t.IsNumeric
  | .ifElse _ c t e | .select c t e => c.IsNumeric ∧ t.IsNumeric ∧ e.IsNumeric
  | .loop _ e | .brIf _ e | .brTable _ _ e | .retValue e | .drop e | .localSet _ e
  | .localTee _ _ e | .unary _ _ e | .convert _ e => e.IsNumeric
  | .binary _ _ l r => l.IsNumeric ∧ r.IsNumeric
  | .call _ args _ => AllNumeric args
termination_by structural n => n

/-- No constant in any of the code is something else than a number. -/
def AllNumeric : List Node → Prop
  | [] => True
  | n :: ns => n.IsNumeric ∧ AllNumeric ns
termination_by structural ns => ns

end

mutual

/-- What is not printed makes no difference to the outline. -/
private theorem Node.outline_unannotated : (n : Node) → n.unannotated.outline = n.outline
  | .nop | .unreachable | .br _ | .ret | .const _ | .localGet .. => rfl
  | .block none children | .block (some _) children | .call _ children _ => by
    simp only [Node.unannotated, Node.outline, outlines_unannotatedAll children]
  | .loop _ e | .brIf _ e | .brTable _ _ e | .retValue e | .drop e | .localSet _ e
  | .localTee _ _ e | .unary _ _ e | .convert _ e => by
    simp only [Node.unannotated, Node.outline, e.outline_unannotated]
  | .ifThen _ c t => by
    simp only [Node.unannotated, Node.outline, c.outline_unannotated, t.outline_unannotated]
  | .ifElse _ c t e | .select c t e => by
    simp only [Node.unannotated, Node.outline, c.outline_unannotated, t.outline_unannotated,
      e.outline_unannotated]
  | .binary _ _ l r => by
    simp only [Node.unannotated, Node.outline, l.outline_unannotated, r.outline_unannotated]
termination_by structural n => n

private theorem outlines_unannotatedAll :
    (ns : List Node) → outlines (unannotatedAll ns) = outlines ns
  | [] => rfl
  | n :: ns => by
    simp only [unannotatedAll, outlines, n.outline_unannotated, outlines_unannotatedAll ns]
termination_by structural ns => ns

end

mutual

/-- Numeric code with the same outline is the same but for what is not printed. -/
theorem Node.unannotated_eq_of_outline_eq : (n m : Node) → n.IsNumeric → m.IsNumeric →
    n.outline = m.outline → n.unannotated = m.unannotated
  | .nop, m, _, _, h | .unreachable, m, _, _, h => by
    -- The keyword decides the constructor, and with it the kinds that are compared.
    obtain ⟨hkeyword, -, -⟩ := Node.outline_inj h
    cases m <;> cases hkeyword
    rfl
  | .block label children, m, hn, hm, h => by
    obtain ⟨hkeyword, hlabel, hparts⟩ := Node.outline_inj h
    cases m <;> cases hkeyword
    next label' children' =>
    -- A block prints a label if it has one, and its label is read off the references.
    have heq := congrArg List.head? (references_injective hlabel)
    rw [Option.head?_toList, Option.head?_toList] at heq
    subst heq
    rw [Node.unannotated, Node.unannotated,
      unannotatedAll_eq_of_outlines_eq children children' hn hm hparts]
  | .call callee args slot, m, hn, hm, h => by
    obtain ⟨hkeyword, hcallee, hparts⟩ := Node.outline_inj h
    cases m <;> cases hkeyword
    next callee' args' slot' =>
    obtain rfl : callee = callee' := index_eq_of_suffix hcallee
    rw [Node.unannotated, Node.unannotated,
      unannotatedAll_eq_of_outlines_eq args args' hn hm hparts]
  | .loop label e, m, hn, hm, h | .brIf label e, m, hn, hm, h => by
    obtain ⟨hkeyword, hlabel, hparts⟩ := Node.outline_inj h
    cases m <;> cases hkeyword
    next label' e' =>
    obtain rfl : label = label' := List.singleton_inj.1 (references_injective hlabel)
    rw [Node.unannotated, Node.unannotated,
      Node.unannotated_eq_of_outline_eq e e' hn hm (List.singleton_inj.1 hparts)]
  | .br label, m, _, _, h => by
    obtain ⟨hkeyword, hlabel, -⟩ := Node.outline_inj h
    cases m with
    | br label' =>
      obtain rfl : label = label' := List.singleton_inj.1 (references_injective hlabel)
      rfl
    | _ => cases hkeyword
  | .brTable labels fallback e, m, hn, hm, h => by
    obtain ⟨hkeyword, hlabels, hparts⟩ := Node.outline_inj h
    cases m <;> cases hkeyword
    next labels' fallback' e' =>
    -- The fallback is the last of the references of a table.
    obtain ⟨rfl, hfallback⟩ := List.append_inj' (references_injective hlabels) rfl
    obtain rfl : fallback = fallback' := List.singleton_inj.1 hfallback
    rw [Node.unannotated, Node.unannotated,
      Node.unannotated_eq_of_outline_eq e e' hn hm (List.singleton_inj.1 hparts)]
  | .const v, m, hn, hm, h => by
    obtain ⟨hkeyword, hvalue, -⟩ := Node.outline_inj h
    cases m <;> injection hkeyword
    next w hslot =>
    -- The keyword of a constant has its slot, and its text has the rest.
    rw [Value.eq_of_toText hslot hn hm ((String.append_right_inj " ").1 hvalue)]
  | .localGet index slot, m, _, _, h => by
    obtain ⟨hkeyword, hindex, -⟩ := Node.outline_inj h
    cases m with
    | localGet index' slot' =>
      obtain rfl : index = index' := index_eq_of_suffix hindex
      rfl
    | _ => cases hkeyword
  | .localSet index e, m, hn, hm, h => by
    obtain ⟨hkeyword, hindex, hparts⟩ := Node.outline_inj h
    cases m <;> cases hkeyword
    next index' e' =>
    obtain rfl : index = index' := index_eq_of_suffix hindex
    rw [Node.unannotated, Node.unannotated,
      Node.unannotated_eq_of_outline_eq e e' hn hm (List.singleton_inj.1 hparts)]
  | .localTee index slot e, m, hn, hm, h => by
    obtain ⟨hkeyword, hindex, hparts⟩ := Node.outline_inj h
    cases m <;> cases hkeyword
    next index' slot' e' =>
    obtain rfl : index = index' := index_eq_of_suffix hindex
    rw [Node.unannotated, Node.unannotated,
      Node.unannotated_eq_of_outline_eq e e' hn hm (List.singleton_inj.1 hparts)]
  | .drop e, m, hn, hm, h | .unary _ _ e, m, hn, hm, h | .convert _ e, m, hn, hm, h => by
    obtain ⟨hkeyword, -, hparts⟩ := Node.outline_inj h
    cases m <;> cases hkeyword
    next e' =>
    rw [Node.unannotated, Node.unannotated,
      Node.unannotated_eq_of_outline_eq e e' hn hm (List.singleton_inj.1 hparts)]
  | .ret, m, _, _, h => by
    obtain ⟨hkeyword, -, hparts⟩ := Node.outline_inj h
    cases m <;> cases hkeyword
    · rfl
    -- A return with a value shares its keyword with one without, and only the parts tell them
    -- apart.
    · cases hparts
  | .retValue e, m, hn, hm, h => by
    obtain ⟨hkeyword, -, hparts⟩ := Node.outline_inj h
    cases m <;> cases hkeyword
    · cases hparts
    next e' =>
    rw [Node.unannotated, Node.unannotated,
      Node.unannotated_eq_of_outline_eq e e' hn hm (List.singleton_inj.1 hparts)]
  | .binary op operand l r, m, hn, hm, h => by
    obtain ⟨hkeyword, -, hparts⟩ := Node.outline_inj h
    cases m <;> cases hkeyword
    next l' r' =>
    -- Operands are printed from left to right.
    obtain ⟨hl, hr⟩ := List.cons.inj hparts
    rw [Node.unannotated, Node.unannotated, Node.unannotated_eq_of_outline_eq l l' hn.1 hm.1 hl,
      Node.unannotated_eq_of_outline_eq r r' hn.2 hm.2 (List.singleton_inj.1 hr)]
  | .select c t e, m, hn, hm, h => by
    obtain ⟨hkeyword, -, hparts⟩ := Node.outline_inj h
    cases m <;> cases hkeyword
    next c' t' e' =>
    -- A choice prints its condition last.
    obtain ⟨ht, hrest⟩ := List.cons.inj hparts
    obtain ⟨he, hc⟩ := List.cons.inj hrest
    rw [Node.unannotated, Node.unannotated,
      Node.unannotated_eq_of_outline_eq c c' hn.1 hm.1 (List.singleton_inj.1 hc),
      Node.unannotated_eq_of_outline_eq t t' hn.2.1 hm.2.1 ht,
      Node.unannotated_eq_of_outline_eq e e' hn.2.2 hm.2.2 he]
  | .ifThen result c t, m, hn, hm, h => by
    obtain ⟨hkeyword, hresult, hparts⟩ := Node.outline_inj h
    cases m <;> cases hkeyword
    next result' c' t' =>
      obtain rfl : result = result' := resultText_injective hresult
      obtain ⟨hc, hrest⟩ := List.cons.inj hparts
      obtain ⟨-, ht⟩ := Outline.item.inj (List.singleton_inj.1 hrest)
      rw [Node.unannotated, Node.unannotated, Node.unannotated_eq_of_outline_eq c c' hn.1 hm.1 hc,
        Node.unannotated_eq_of_outline_eq t t' hn.2 hm.2 (List.singleton_inj.1 ht)]
    -- Two branches are printed for one conditional and one for the other.
    next => cases (List.cons.inj (List.cons.inj hparts).2).2
  | .ifElse result c t e, m, hn, hm, h => by
    obtain ⟨hkeyword, hresult, hparts⟩ := Node.outline_inj h
    cases m <;> cases hkeyword
    next => cases (List.cons.inj (List.cons.inj hparts).2).2
    next result' c' t' e' =>
      obtain rfl : result = result' := resultText_injective hresult
      obtain ⟨hc, hrest⟩ := List.cons.inj hparts
      obtain ⟨hthen, helse⟩ := List.cons.inj hrest
      obtain ⟨-, ht⟩ := Outline.item.inj hthen
      obtain ⟨-, he⟩ := Outline.item.inj (List.singleton_inj.1 helse)
      rw [Node.unannotated, Node.unannotated, Node.unannotated_eq_of_outline_eq c c' hn.1 hm.1 hc,
        Node.unannotated_eq_of_outline_eq t t' hn.2.1 hm.2.1 (List.singleton_inj.1 ht),
        Node.unannotated_eq_of_outline_eq e e' hn.2.2 hm.2.2 (List.singleton_inj.1 he)]
termination_by structural n => n

/-- Lists that print alike have equally many nodes, which agree but for their annotations. -/
private theorem unannotatedAll_eq_of_outlines_eq :
    (ns ms : List Node) → AllNumeric ns → AllNumeric ms →
    outlines ns = outlines ms → unannotatedAll ns = unannotatedAll ms
  | [], [], _, _, _ => rfl
  | [], _ :: _, _, _, h | _ :: _, [], _, _, h => nomatch h
  | n :: ns, m :: ms, hn, hm, h => by
    obtain ⟨hfirst, hrest⟩ := List.cons.inj h
    rw [unannotatedAll, unannotatedAll, Node.unannotated_eq_of_outline_eq n m hn.1 hm.1 hfirst,
      unannotatedAll_eq_of_outlines_eq ns ms hn.2 hm.2 hrest]
termination_by structural ns => ns

end

/-- The text of numeric code determines the code, but for the slots that are not printed. -/
theorem Node.toText_eq_iff {n m : Node} (hn : n.IsNumeric) (hm : m.IsNumeric) :
    n.toText = m.toText ↔ n.unannotated = m.unannotated := by
  constructor
  · intro h
    have houtline := Outline.eq_of_render n.isBalanced_outline m.isBalanced_outline h
    exact Node.unannotated_eq_of_outline_eq n m hn hm houtline
  · intro h
    rw [Node.toText, Node.toText, ← n.outline_unannotated, ← m.outline_unannotated, h]

/-- A call with a local and a zero as its arguments. -/
def sampleCall (slot : Slot) (negative : Bool) : Node :=
  .call 2 [.localGet 0 slot, .const (.f64 (Binary.zero negative))] slot

/-- Slots on calls and reads make no difference to the text, and the signs of zeros do. -/
theorem Node.sampleCall_text :
    (sampleCall .i32 true).toText = (sampleCall .f32 true).toText ∧
      (sampleCall .i32 true).toText ≠ (sampleCall .i32 false).toText := by
  have hnumeric (slot : Slot) (negative : Bool) : (sampleCall slot negative).IsNumeric := by
    have hzero : (Binary.zero negative : Double).isNaN = false := by
      cases negative <;> decide
    exact ⟨trivial, hzero, trivial⟩
  refine ⟨(Node.toText_eq_iff (hnumeric _ _) (hnumeric _ _)).2 rfl, fun h => ?_⟩
  have heq := (Node.toText_eq_iff (hnumeric _ _) (hnumeric _ _)).1 h
  simp [sampleCall, Node.unannotated, unannotatedAll, Binary.zero, Binary.ofMagnitude] at heq

end Weir.Code
