import Mathlib
import Weir.Code.Text
import Weir.Proofs.PrintedOutlines
import Weir.Proofs.ShortestDecimals

/-!
# Reading headings back

The heading of a node starts with a keyword, and data of the node may follow, set off by a blank.
Keywords are words, so the first blank ends them, and no two of them look alike. Labels, results,
indices and numbers are read back from what follows, but for floating-point values that are not
numbers.

## Key results

- `Keyword.text_injective`, `Keyword.eq_of_append_eq`: the keyword of a heading
- `references_injective`: labels one after the other
- `Value.eq_of_toText`: numbers in the same slot with the same text
-/

namespace Weir.Code

open Outline (Balanced balanced_of_forall)

/-! ## Words -/

/-- A word has no blanks and no parentheses, and stays on one line. -/
def IsWord (cs : List Char) : Prop := ∀ c ∈ cs, c ∉ [' ', '\n', '(', ')']

/-- The four characters are a finite list, so being a word is decided by looking. -/
instance (cs : List Char) : Decidable (IsWord cs) := List.decidableBAll _ cs

/-- Words that stand side by side make a longer word. -/
theorem IsWord.append {cs ds : List Char} (hcs : IsWord cs) (hds : IsWord ds) :
    IsWord (cs ++ ds) := by
  intro c hc
  rcases List.mem_append.1 hc with hc | hc
  · exact hcs c hc
  · exact hds c hc

/-- The blank that separates the parts of a heading is not in any of them. -/
private theorem IsWord.notMem_blank {cs : List Char} (h : IsWord cs) : ' ' ∉ cs := fun hmem =>
  h _ hmem (by decide)

/-- Letters and digits are not among the characters that structure a text. -/
private theorem notMem_of_isAlphanum {c : Char} (h : c.isAlphanum) : c ∉ [' ', '\n', '(', ')'] := by
  intro hmem
  simp only [List.mem_cons, List.not_mem_nil, or_false] at hmem
  rcases hmem with rfl | rfl | rfl | rfl <;> cases h

/-- The decimal notation of a number has digits only. -/
private theorem isAlphanum_of_mem_repr {n : Nat} {c : Char} (h : c ∈ (toString n).toList) :
    c.isAlphanum := by
  rw [Char.isAlphanum, Decimal.isDigit_of_mem_repr h, Bool.or_true]

/-- A number in decimal notation is a word. -/
theorem isWord_repr (n : Nat) : IsWord (toString n).toList := fun _ hc =>
  notMem_of_isAlphanum (isAlphanum_of_mem_repr hc)

/-- A word has no parentheses, so it is balanced. -/
theorem IsWord.balanced {cs : List Char} (h : IsWord cs) : Balanced cs := by
  refine balanced_of_forall fun c hc => ?_
  have hmem := h c hc
  simp only [List.mem_cons, List.not_mem_nil, or_false, not_or] at hmem
  exact hmem.2

/-- What comes before the first `c`. -/
private theorem takeWhile_append_of_head {c : Char} {cs ds : List Char} (hcs : c ∉ cs)
    (hds : ∀ d ∈ ds.head?, d = c) : (cs ++ ds).takeWhile (· ≠ c) = cs := by
  have hall : ∀ d ∈ cs, decide (d ≠ c) = true := fun d hd =>
    decide_eq_true fun heq => hcs (heq ▸ hd)
  rw [List.takeWhile_append_of_pos hall]
  cases ds with
  | nil => simp
  | cons d ds =>
    obtain rfl : d = c := hds d rfl
    simp

/-- Text without `c` ends where `c` stands first. -/
private theorem eq_of_append_of_head {c : Char} {cs cs' ds ds' : List Char} (hcs : c ∉ cs)
    (hcs' : c ∉ cs') (hds : ∀ d ∈ ds.head?, d = c) (hds' : ∀ d ∈ ds'.head?, d = c)
    (h : cs ++ ds = cs' ++ ds') : cs = cs' ∧ ds = ds' := by
  have hleft : cs = cs' := by
    rw [← takeWhile_append_of_head hcs hds, h, takeWhile_append_of_head hcs' hds']
  subst hleft
  exact ⟨rfl, List.append_cancel_left h⟩

/-! ## Labels -/

/-- The kind of a label as text. -/
def LabelKind.text : LabelKind → String
  | .exit => "break"
  | .next => "continue"
  | .head => "loop"
  | .clause ordinal => "case" ++ toString ordinal
  | .fallback => "default"

/-- Distinct kinds of labels are written differently. Only the clauses carry a number, and their
    prefix is not that of another kind. -/
theorem LabelKind.text_injective : Function.Injective LabelKind.text := by
  intro k k' h
  have hchars := congrArg String.toList h
  cases k with
  | clause ordinal =>
    cases k' with
    | clause ordinal' =>
      rw [Nat.repr_injective ((String.append_right_inj "case").1 h)]
    | _ => simp [LabelKind.text] at hchars
  | _ => cases k' <;> simp [LabelKind.text] at hchars ⊢

/-- The text of a kind has letters and digits only, so it does not reach the dollar sign after it.
    -/
private theorem LabelKind.isAlphanum_of_mem_text {k : LabelKind} {c : Char}
    (h : c ∈ k.text.toList) :
    c.isAlphanum := by
  have hname {s : String} (hs : s.toList.all Char.isAlphanum) (hc : c ∈ s.toList) : c.isAlphanum :=
    -- The number after the prefix of a clause is the one part that is not a fixed word.
    List.all_eq_true.1 hs c hc
  cases k with
  | clause ordinal =>
    rw [LabelKind.text, String.toList_append] at h
    rcases List.mem_append.1 h with hmem | hmem
    · exact hname (by decide) hmem
    · exact isAlphanum_of_mem_repr hmem
  | _ => exact hname (by decide) h

namespace Label

/-- A label is written as its kind and its scope, with a dollar sign between them. -/
private theorem toList_toText (l : Label) :
    l.toText.toList = l.kind.text.toList ++ '$' :: (toString l.scope).toList := by
  obtain ⟨kind, scope⟩ := l
  cases kind <;> simp [toText, LabelKind.text]

/-- A label with the sign that it is referred to by. -/
private theorem isWord_cons_toText (l : Label) : IsWord ('$' :: l.toText.toList) := by
  have hkind : IsWord l.kind.text.toList := fun _ hc =>
    notMem_of_isAlphanum (LabelKind.isAlphanum_of_mem_text hc)
  have hsign : IsWord ['$'] := by decide
  have hscope : IsWord ('$' :: (toString l.scope).toList) := hsign.append (isWord_repr l.scope)
  rw [toList_toText]
  exact hsign.append (hkind.append hscope)

/-- Distinct labels are written differently: the dollar sign tells where the kind ends. -/
theorem toText_injective : Function.Injective Label.toText := by
  intro l l' h
  have hchars := congrArg String.toList h
  -- Neither side of the dollar sign has one itself, so the texts can only split there.
  have hscope : '$' ∉ (toString l.scope).toList := fun hmem =>
    absurd (isAlphanum_of_mem_repr hmem) (by decide)
  have hkind : '$' ∉ l.kind.text.toList := fun hmem =>
    absurd (LabelKind.isAlphanum_of_mem_text hmem) (by decide)
  rw [toList_toText, toList_toText, List.append_cons_inj_of_notMem hkind hscope] at hchars
  obtain ⟨hkind, -, hscope⟩ := hchars
  obtain ⟨kind, scope⟩ := l
  obtain ⟨kind', scope'⟩ := l'
  obtain rfl : kind = kind' := LabelKind.text_injective (String.toList_inj.1 hkind)
  obtain rfl : scope = scope' := Nat.repr_injective (String.toList_inj.1 hscope)
  rfl

end Label

/-- Labels one after the other. -/
def references (labels : List Label) : String := String.join (labels.map Label.reference)

/-- The reference to the first of some labels is written first. -/
private theorem references_cons (l : Label) (ls : List Label) :
    references (l :: ls) = l.reference ++ references ls := by
  rw [references, List.map_cons, String.join_cons, references]

/-- One label is written as a reference to it. -/
theorem references_singleton (l : Label) : references [l] = l.reference :=
  (references_cons l []).trans String.append_empty

/-- What follows a keyword in a heading: a blank, unless there is nothing, and a heading. -/
structure SetOff (s : String) : Prop where
  blank : ∀ c ∈ s.toList.head?, c = ' '
  balanced : Balanced s.toList

namespace SetOff

/-- Nothing is set off. -/
theorem empty : SetOff "" := ⟨by simp, rfl⟩

/-- A word after a blank is set off. -/
theorem word {s : String} (hs : IsWord s.toList) : SetOff (" " ++ s) := by
  constructor
  · simp
  · rw [String.toList_append]
    exact .append rfl hs.balanced

/-- What is set off can be followed by more that is. -/
theorem append {s t : String} (hs : SetOff s) (ht : SetOff t) : SetOff (s ++ t) := by
  refine ⟨fun c hc => ?_, by rw [String.toList_append]; exact hs.balanced.append ht.balanced⟩
  rw [String.toList_append, List.head?_append, Option.mem_def, Option.or_eq_some_iff] at hc
  rcases hc with hc | ⟨-, hc⟩
  · exact hs.blank c hc
  · exact ht.blank c hc

/-- A reference begins with the blank before its dollar sign. -/
private theorem reference (l : Label) : SetOff l.reference := by
  rw [Label.reference, show " $" = " " ++ "$" from rfl, String.append_assoc]
  refine word ?_
  rw [String.toList_append]
  exact l.isWord_cons_toText

/-- The references of a table of jumps are set off, however many there are. -/
theorem references (ls : List Label) : SetOff (references ls) := by
  induction ls with
  | nil => exact empty
  | cons l ls ih =>
    rw [references_cons]
    exact (reference l).append ih

/-- The result type of a block is set off, and empty if there is none. -/
theorem resultText (s : Slot) : SetOff (resultText s) := by
  cases s <;> exact ⟨by simp [Code.resultText, Slot.name], rfl⟩

end SetOff

/-- The characters of a nonempty list of references, the blank and the dollar sign at its head. -/
private theorem toList_references_cons (l : Label) (ls : List Label) :
    (references (l :: ls)).toList =
      ' ' :: ('$' :: l.toText.toList ++ (references ls).toList) := by
  simp [references_cons, Label.reference]

/-- Labels one after the other are told apart by the blanks before them. -/
theorem references_injective : Function.Injective references := by
  intro ls ls' h
  -- The induction is on one list. A nonempty list has characters and an empty one has none, so the
  -- lists end together.
  induction ls generalizing ls' with
  | nil =>
    cases ls' with
    | nil => rfl
    | cons l' ls' =>
      have hchars := congrArg String.toList h
      rw [toList_references_cons] at hchars
      cases hchars
  | cons l ls ih =>
    have hchars := congrArg String.toList h
    cases ls' with
    | nil =>
      rw [toList_references_cons] at hchars
      cases hchars
    | cons l' ls' =>
      rw [toList_references_cons, toList_references_cons] at hchars
      -- A label has no blank, so the first blank after it is where the next reference begins.
      obtain ⟨hlabel, hlabels⟩ := eq_of_append_of_head l.isWord_cons_toText.notMem_blank
        l'.isWord_cons_toText.notMem_blank (SetOff.references ls).blank
        (SetOff.references ls').blank (List.cons.inj hchars).2
      obtain rfl : l = l' := Label.toText_injective (String.toList_inj.1 (List.cons.inj hlabel).2)
      rw [ih (String.toList_inj.1 hlabels)]

/-! ## Values -/

/-- A float is written without blanks, line breaks and parentheses, also where it is infinite or no
    number. -/
private theorem isWord_toText_binary {f : Format} (x : Binary f) : IsWord x.toText.toList := by
  have hbody : IsWord x.body.toList := by
    intro c hc
    rcases Binary.mem_body hc with hdigit | hletter
    · exact notMem_of_isAlphanum (by rw [Char.isAlphanum, hdigit, Bool.or_true])
    · have hword : IsWord ['.', 'i', 'n', 'f'] := by decide
      exact hword c hletter
  cases hnan : x.isNaN with
  | true =>
    rw [Binary.toText, if_pos hnan]
    decide
  | false =>
    rw [Binary.toText_eq hnan]
    split
    · rw [String.toList_append]
      exact .append (by decide) hbody
    · exact hbody

/-- An integer in decimal notation is a word, with its sign. -/
private theorem isWord_toString_int (n : Int) : IsWord (toString n).toList := by
  cases n with
  | ofNat n => exact isWord_repr n
  | negSucc n =>
    change IsWord ("-" ++ (n + 1).repr).toList
    rw [String.toList_append]
    exact .append (by decide) (isWord_repr (n + 1))

namespace Value

/-- Whether a value is not a number. -/
def isNaN : Value → Bool
  | i32 _ | i64 _ => false
  | f32 x => x.isNaN
  | f64 x => x.isNaN

/-- The text of a value is a word in every slot. -/
theorem isWord_toText (v : Value) : IsWord v.toText.toList := by
  cases v with
  | i32 n | i64 n => exact isWord_toString_int _
  | f32 x | f64 x => exact isWord_toText_binary x

/-- Numbers in the same slot with the same text are the same. -/
theorem eq_of_toText {v w : Value} (hslot : v.slot = w.slot) (hv : v.isNaN = false)
    (hw : w.isNaN = false) (h : v.toText = w.toText) : v = w := by
  cases v with
  | i32 n =>
    cases w with
    | i32 m => rw [BitVec.toInt_inj.1 (Int.repr_injective h)]
    | _ => cases hslot
  | i64 n =>
    cases w with
    | i64 m => rw [BitVec.toInt_inj.1 (Int.repr_injective h)]
    | _ => cases hslot
  | f32 x =>
    cases w with
    | f32 y => rw [Binary.eq_of_toText Format.isProportionate_single hv hw h]
    | _ => cases hslot
  | f64 x =>
    cases w with
    | f64 y => rw [Binary.eq_of_toText Format.isProportionate_double hv hw h]
    | _ => cases hslot

end Value

/-! ## Keywords -/

/-- What the heading of a node starts with. -/
inductive Keyword where
  | nop
  | unreachable
  | block
  | loop
  | ifThen
  | select
  | br
  | brIf
  | brTable
  | ret
  | drop
  | const (slot : Slot)
  | localGet
  | localSet
  | localTee
  | unary (op : UnaryOp) (operand : Slot)
  | binary (op : BinaryOp) (operand : Slot)
  | convert (conversion : Conversion)
  | call

namespace Keyword

/-- The keyword as text. -/
def text : Keyword → String
  | nop => "nop"
  | unreachable => "unreachable"
  | block => "block"
  | loop => "loop"
  | ifThen => "if"
  | select => "select"
  | br => "br"
  | brIf => "br_if"
  | brTable => "br_table"
  | ret => "return"
  | drop => "drop"
  | const slot => slot.name ++ ".const"
  | localGet => "local.get"
  | localSet => "local.set"
  | localTee => "local.tee"
  | unary op operand => operand.name ++ "." ++ op.mnemonic
  | binary op operand => operand.name ++ "." ++ op.mnemonic
  | convert conversion => conversion.mnemonic
  | call => "call"

/-- The slot that a keyword names first. -/
def slot? : Keyword → Option Slot
  | const slot => some slot
  | unary _ operand | binary _ operand => some operand
  | convert conversion => some conversion.result
  | _ => none

/-- The keywords that name a given slot first. -/
def withSlot : Option Slot → List Keyword
  | none => [nop, unreachable, block, loop, ifThen, select, br, brIf, brTable, ret, drop, localGet,
    localSet, localTee, call]
  | some slot =>
    const slot :: unary .eqz slot :: unary .neg slot :: BinaryOp.all.map (binary · slot) ++
      (Conversion.all.filter (·.result = slot)).map convert

/-- The candidates for a slot include every keyword that has it. -/
private theorem mem_withSlot (k : Keyword) : k ∈ withSlot k.slot? := by
  cases k with
  | unary op operand => cases op <;> simp [slot?, withSlot]
  | binary op operand => simp [slot?, withSlot, BinaryOp.mem_all]
  | convert conversion => simp [slot?, withSlot, Conversion.mem_all]
  | _ => simp [slot?, withSlot]

/-- The text of a keyword is a word. The mnemonics are finitely many, and they are looked through.
    -/
theorem isWord_text (k : Keyword) : IsWord k.text.toList := by
  have hname (slot : Slot) : IsWord slot.name.toList := by cases slot <;> decide
  have hoperator : ∀ op ∈ BinaryOp.all, IsWord op.mnemonic.toList := by decide +kernel
  have hconversion : ∀ c ∈ Conversion.all, IsWord c.mnemonic.toList := by decide +kernel
  cases k with
  | const slot =>
    rw [text, String.toList_append]
    exact (hname slot).append (by decide)
  | unary op operand =>
    rw [text, String.toList_append, String.toList_append]
    exact ((hname operand).append (by decide)).append (by cases op <;> decide)
  | binary op operand =>
    rw [text, String.toList_append, String.toList_append]
    exact ((hname operand).append (by decide)).append (hoperator op op.mem_all)
  | convert conversion => exact hconversion conversion conversion.mem_all
  | _ => decide

/-- The slot that a keyword names first can be read in its text. -/
private theorem ofName?_text (k : Keyword) :
    Slot.ofName? (String.ofList (k.text.toList.takeWhile (· ≠ '.'))) = k.slot? := by
  have hnamed (slot : Slot) (s : String) (hs : ∀ c ∈ s.toList.head?, c = '.') :
      Slot.ofName? (String.ofList ((slot.name ++ s).toList.takeWhile (· ≠ '.'))) = some slot := by
    have hpoint : '.' ∉ slot.name.toList := by cases slot <;> decide
    rw [String.toList_append, takeWhile_append_of_head hpoint hs, String.ofList_toList,
      Slot.ofName?_name]
  have hconversion : ∀ c ∈ Conversion.all,
      Slot.ofName? (String.ofList (c.mnemonic.toList.takeWhile (· ≠ '.'))) = some c.result := by
    decide +kernel
  cases k with
  | const slot => exact hnamed slot _ (by simp)
  | unary op operand | binary op operand =>
    rw [text, String.append_assoc]
    exact hnamed operand _ (by simp)
  | convert conversion => exact hconversion conversion conversion.mem_all
  | _ => decide

/-- No two keywords look alike. -/
theorem text_injective : Function.Injective text := by
  intro k k' h
  have hnodup (slot? : Option Slot) : ((withSlot slot?).map text).Nodup := by
    rcases slot? with _ | _ | _ | _ | _ | _ <;> decide +kernel
  have hslot : k.slot? = k'.slot? := by rw [← ofName?_text k, ← ofName?_text k', h]
  exact List.inj_on_of_nodup_map (hnodup k.slot?) k.mem_withSlot (hslot ▸ k'.mem_withSlot) h

/-- A keyword ends where the first blank stands. -/
theorem eq_of_append_eq {k k' : Keyword} {s s' : String} (hs : SetOff s) (hs' : SetOff s')
    (h : k.text ++ s = k'.text ++ s') : k = k' ∧ s = s' := by
  have hchars := congrArg String.toList h
  rw [String.toList_append, String.toList_append] at hchars
  obtain ⟨hk, hrest⟩ := eq_of_append_of_head k.isWord_text.notMem_blank
    k'.isWord_text.notMem_blank hs.blank hs'.blank hchars
  exact ⟨text_injective (String.toList_inj.1 hk), String.toList_inj.1 hrest⟩

end Keyword

end Weir.Code
