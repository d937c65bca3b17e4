import Weir.Json.Parser
import Weir.Proofs.DecodedPrograms

/-!
# Numbers that are read from JSON text

What is read from JSON text has no other numbers than integers of at most 64 bits and finite
doubles: digits past 64 bits are left to the exponent, and a number past the largest double is
refused. The scanner and the parser keep this of all that they hold. So every program that is read
from text is read again from what is written for it.

## Key results

- `Json.isFinite_of_double?`: doubles that are read are finite
- `Json.isWritable_of_ofNumber?`: numbers that are read
- `Json.isWritable_of_parse?`: values that are read
- `Program.ofJson?_toJson_of_ofText?`: programs that are read from text are read back
-/

namespace Weir.Json

/-! ## Doubles -/

/-- The powers of ten that numbers are scaled by are finite, and at least one. -/
private theorem powerOfTen_spec {n : ℕ} (hn : n ≤ 308) :
    (powerOfTen n).isFinite ∧ 1 ≤ (powerOfTen n).absRat := by
  have hone : (1 : ℚ) ≤ 10 ^ (n : ℤ) := one_le_zpow₀ (by norm_num) (Int.natCast_nonneg n)
  -- The last power is below the largest double, and the others are below the last.
  have hlast : 10 ^ 308 ≤ (2 ^ 53 - 1) * 2 ^ 971 := by decide +kernel
  have hlargest : (10 : ℚ) ^ (n : ℤ) ≤ Binary.largest :=
    calc (10 : ℚ) ^ (n : ℤ) ≤ 10 ^ 308 := by
          rw [zpow_natCast]
          exact pow_le_pow_right₀ (by norm_num) hn
      _ ≤ ((2 ^ 53 - 1 : ℕ) : ℚ) * 2 ^ 971 := by exact_mod_cast hlast
      _ = Binary.largest := by norm_num [Binary.largest]
  unfold powerOfTen Binary.ofRat
  rw [if_neg (not_lt.2 (zero_le_one.trans hone))]
  exact ⟨Binary.isFinite_ofAbsRat _ (zero_le_one.trans hone) hlargest,
    Binary.one_le_absRat_ofAbsRat _ hone⟩

/-- Dividing by a power of ten does not leave the finite doubles. -/
private theorem isFinite_divideByPower {x : Double} (hx : x.isFinite) (n : Nat) :
    (divideByPower x n).isFinite := by
  -- A large power is divided by in parts, so the induction is on the parts.
  induction x, n using divideByPower.induct with
  | case1 x n hn =>
    rw [divideByPower, if_pos hn]
    exact Binary.isFinite_div hx (powerOfTen_spec hn).1 (powerOfTen_spec hn).2
  | case2 x n hn hzero =>
    rw [divideByPower, if_neg hn, if_pos hzero]
    exact hx
  | case3 x n hn hzero ih =>
    rw [divideByPower, if_neg hn, if_neg hzero]
    have hten := powerOfTen_spec (Nat.le_refl 308)
    exact ih (Binary.isFinite_div hx hten.1 hten.2)

/-- A product past the largest double is refused. -/
private theorem isFinite_of_multiplyByPower? {x y : Double} {n : Nat} (hx : x.isFinite)
    (h : multiplyByPower? x n = some y) : y.isFinite := by
  unfold multiplyByPower? at h
  split at h
  · next hn =>
    dsimp only at h
    split at h
    · cases h
    · next hinfinite =>
      obtain rfl := Option.some.inj h
      exact Binary.isFinite_mul hx (powerOfTen_spec hn).1 (Bool.eq_false_iff.2 hinfinite)
  · split at h
    · obtain rfl := Option.some.inj h
      exact hx
    · cases h

/-- A significand of 64 bits is finite as a double, and so is every scaling of it that is not
    refused. -/
private theorem isFinite_of_scale? {significand : Nat} {exponent : Int} {y : Double}
    (hsignificand : significand < 2 ^ 64) (h : scale? significand exponent = some y) :
    y.isFinite := by
  have hx : (Binary.ofInt (significand : Int) : Double).isFinite :=
    Binary.isFinite_ofInt (by omega) (by omega)
  unfold scale? at h
  dsimp only at h
  split at h
  · obtain rfl := Option.some.inj h
    exact isFinite_divideByPower hx _
  · exact isFinite_of_multiplyByPower? hx h

/-- Digits are taken while the significand fits 64 bits. -/
private theorem absorb_lt {n : Nat} (hn : n < 2 ^ 64) (cs : List Char) :
    (absorb n cs).1 < 2 ^ 64 := by
  induction cs generalizing n with
  | nil => exact hn
  | cons c cs ih =>
    unfold absorb
    dsimp only
    split
    · next hm => exact ih hm
    · exact hn

/-- The digits of a fraction and an exponent are read as a finite double, if as any. -/
theorem isFinite_of_double? {whole fraction : List Char} {exponent : Int} {x : Double}
    (h : double? whole fraction exponent = some x) : x.isFinite := by
  have hzero : (Binary.zero false : Double).isFinite := by decide
  -- Digits that no longer fit the significand are not absorbed, so it keeps below 64 bits.
  have hsignificand := absorb_lt (absorb_lt (n := 0) (by decide) whole) fraction
  unfold double? at h
  dsimp only at h
  split at h
  · split at h
    · obtain rfl := Option.some.inj h
      exact hzero
    · cases h
  · split at h
    · obtain rfl := Option.some.inj h
      exact hzero
    · exact isFinite_of_scale? hsignificand h

/-! ## Numbers -/

/-- An integer is read where it fits 64 bits, with or without a sign. -/
private theorem isWritable_of_integer? {negative : Bool} {m : Nat} {n : Int}
    (h : integer? negative m = some n) : (Json.int n).isWritable := by
  unfold integer? at h
  rw [isWritable, decide_eq_true_eq]
  split at h
  · split at h
    · next hm =>
      obtain rfl := Option.some.inj h
      have hle : m ≤ 2 ^ 63 := hm.2
      omega
    · cases h
  · split at h
    · next hm =>
      obtain rfl := Option.some.inj h
      have hlt : m < 2 ^ 64 := hm
      omega
    · cases h

/-- A sign leaves a double finite. -/
private theorem isFinite_signed {x : Double} (negative : Bool) (h : x.isFinite) :
    (if negative then x.neg else x).isFinite := by
  cases negative <;> exact h

/-- A number in a text is writable. -/
theorem isWritable_of_ofNumber? {cs : List Char} {j : Json} (h : ofNumber? cs = some j) :
    j.isWritable := by
  unfold ofNumber? at h
  -- Without digits at the start there is no number.
  split at h
  dsimp only at h
  split at h
  · cases h
  split at h
  -- Digits alone are an integer, if it fits 64 bits.
  · split at h
    · next n hn =>
      obtain rfl := Option.some.inj h
      exact isWritable_of_integer? hn
    · obtain rfl := Option.some.inj h
      split
      · next x hx => exact isFinite_signed _ (isFinite_of_double? hx)
      · rfl
  -- A fraction and an exponent, or an exponent alone.
  · split at h
    · cases h
    · obtain ⟨e, -, rfl⟩ := Option.map_eq_some_iff.1 h
      split
      · next x hx => exact isFinite_signed _ (isFinite_of_double? hx)
      · rfl
  · obtain ⟨e, -, rfl⟩ := Option.map_eq_some_iff.1 h
    split
    · next x hx => exact isFinite_signed _ (isFinite_of_double? hx)
    · rfl

/-! ## Readers -/

/-- What every step of a reader keeps holds at the end of what it reads. -/
private theorem of_foldlM {σ α : Type} {P : σ → Prop} {step : σ → α → Option σ} {as : List α}
    (hstep : ∀ a ∈ as, ∀ s s', P s → step s a = some s' → P s') {s s' : σ} (hs : P s)
    (h : as.foldlM step s = some s') : P s' := by
  induction as generalizing s with
  | nil =>
    obtain rfl := Option.some.inj h
    exact hs
  | cons a as ih =>
    rw [List.foldlM_cons] at h
    obtain ⟨t, ht, h⟩ := Option.bind_eq_some_iff.1 h
    rw [List.forall_mem_cons] at hstep
    exact ih hstep.2 (hstep.1 _ _ hs ht) h

namespace Token

/-- The scalar that a token may be has the numbers that JSON text has. -/
def IsWritable (t : Token) : Prop := ∀ j, t = scalar j → j.isWritable

/-- A word is writable, because a constant is and a number is. -/
private theorem isWritable_of_ofWord? {word : List Char} {j : Json} (h : ofWord? word = some j) :
    j.isWritable := by
  unfold ofWord? at h
  split at h
  · obtain rfl := Option.some.inj h
    rfl
  split at h
  · obtain rfl := Option.some.inj h
    rfl
  split at h
  · obtain rfl := Option.some.inj h
    rfl
  · exact isWritable_of_ofNumber? h

/-- A mark of punctuation carries no value. -/
private theorem isWritable_of_ofPunctuation? {c : Char} {t : Token}
    (h : ofPunctuation? c = some t) :
    t.IsWritable := by
  rintro j rfl
  unfold ofPunctuation? at h
  grind

namespace Scanner

/-- The tokens so far. -/
def IsWritable (s : Scanner) : Prop := ∀ t ∈ s.tokens, t.IsWritable

/-- A character between words adds at most a mark of punctuation to the tokens. -/
private theorem isWritable_start {ts : List Token} (hts : ∀ t ∈ ts, t.IsWritable) (c : Char) :
    (start ts c).IsWritable := by
  unfold start
  split
  · exact hts
  split
  · exact hts
  split
  · next t ht =>
    rw [IsWritable, List.forall_mem_cons]
    exact ⟨isWritable_of_ofPunctuation? ht, hts⟩
  · exact hts

/-- The token of a writable value is writable. -/
private theorem isWritable_scalar {j : Json} (hj : j.isWritable) : (scalar j).IsWritable := by
  intro j' h
  cases h
  exact hj

/-- Scanning one character keeps all tokens writable. -/
private theorem isWritable_of_step? {s s' : Scanner} {c : Char} (hs : s.IsWritable)
    (h : s.step? c = some s') : s'.IsWritable := by
  unfold step? at h
  split at h
  · obtain rfl := Option.some.inj h
    exact isWritable_start hs c
  -- The character after a word ends it, and may be a token of its own.
  · split at h
    · obtain ⟨j, hj, rfl⟩ := Option.map_eq_some_iff.1 h
      refine isWritable_start ?_ c
      rw [List.forall_mem_cons]
      exact ⟨isWritable_scalar (isWritable_of_ofWord? hj), hs⟩
    · obtain rfl := Option.some.inj h
      exact hs
  -- A string ends with its quotation mark, and until then every character goes to its body.
  · split at h
    · obtain rfl := Option.some.inj h
      rw [IsWritable, List.forall_mem_cons]
      exact ⟨nofun, hs⟩
    · obtain ⟨body, -, rfl⟩ := Option.map_eq_some_iff.1 h
      exact hs

/-- At the end of the text a word may be open, and it is read as one that has ended. -/
private theorem isWritable_of_finish? {s : Scanner} {ts : List Token} (hs : s.IsWritable)
    (h : s.finish? = some ts) : ∀ t ∈ ts, t.IsWritable := by
  unfold finish? at h
  split at h
  · obtain rfl := Option.some.inj h
    intro t ht
    exact hs t (List.mem_reverse.1 ht)
  · obtain ⟨j, hj, rfl⟩ := Option.map_eq_some_iff.1 h
    intro t ht
    rw [List.mem_reverse, List.mem_cons] at ht
    rcases ht with rfl | ht
    · exact isWritable_scalar (isWritable_of_ofWord? hj)
    · exact hs t ht
  · cases h

end Scanner

/-- The tokens of a text are writable. -/
private theorem isWritable_of_scan? {cs : List Char} {ts : List Token} (h : scan? cs = some ts) :
    ∀ t ∈ ts, t.IsWritable := by
  obtain ⟨s, hs, h⟩ := Option.bind_eq_some_iff.1 h
  have hstart : ({} : Scanner).IsWritable := fun t ht => by cases ht
  exact Scanner.isWritable_of_finish?
    (of_foldlM (fun _ _ _ _ => Scanner.isWritable_of_step?) hstart hs) h

end Token

namespace Parser

/-- The values in an open container. -/
def Frame.IsWritable : Frame → Prop
  | .array items => ∀ j ∈ items, j.isWritable
  | .object fields _ => ∀ f ∈ fields, f.2.isWritable

/-- The values in the open containers, and the value that has been read if there is one. -/
structure State.IsWritable (s : State) : Prop where
  stack : ∀ f ∈ s.stack, f.IsWritable
  result : ∀ j, s.expected = .nothing j → j.isWritable

/-- The fields that make up an object are those that have been collected, each with its value. -/
private theorem isWritable_close {fields : List (Option String × Json)}
    (h : ∀ f ∈ fields, f.2.isWritable) : (close fields).isWritable := by
  unfold close
  split
  · next fs hfs =>
    rw [isWritable_object]
    intro f hf
    obtain ⟨g, hg, hkey⟩ := exists_of_mem_mapM hfs hf
    -- Every field of the object is one of the collected ones that has a key.
    obtain ⟨key, -, rfl⟩ := Option.map_eq_some_iff.1 hkey
    exact h g (List.mem_reverse.1 hg)
  · rfl

/-- A value that is complete goes to the frame around it, or is the result where there is none. -/
private theorem isWritable_supply {j : Json} {stack : List Frame} (hj : j.isWritable)
    (hstack : ∀ f ∈ stack, f.IsWritable) : (supply j stack).IsWritable := by
  cases stack with
  | nil =>
    refine ⟨nofun, ?_⟩
    rintro _ ⟨⟩
    exact hj
  | cons frame stack =>
    rw [List.forall_mem_cons] at hstack
    cases frame with
    | array items =>
      refine ⟨?_, nofun⟩
      exact List.forall_mem_cons.2 ⟨List.forall_mem_cons.2 ⟨hj, hstack.1⟩, hstack.2⟩
    | object fields key =>
      refine ⟨?_, nofun⟩
      exact List.forall_mem_cons.2 ⟨List.forall_mem_cons.2 ⟨hj, hstack.1⟩, hstack.2⟩

variable {stack : List Frame} {token : Token} {s s' : State}

/-- The beginning of a value opens a frame or is the whole value. -/
private theorem isWritable_of_beginValue (hstack : ∀ f ∈ stack, f.IsWritable)
    (htoken : token.IsWritable)
    (h : beginValue stack token = some s') : s'.IsWritable := by
  unfold beginValue at h
  split at h
  · obtain rfl := Option.some.inj h
    exact ⟨List.forall_mem_cons.2 ⟨nofun, hstack⟩, nofun⟩
  · obtain rfl := Option.some.inj h
    exact ⟨List.forall_mem_cons.2 ⟨nofun, hstack⟩, nofun⟩
  · next j =>
    obtain rfl := Option.some.inj h
    exact isWritable_supply (htoken j rfl) hstack
  · obtain rfl := Option.some.inj h
    exact isWritable_supply rfl hstack
  · obtain rfl := Option.some.inj h
    exact isWritable_supply rfl hstack
  · cases h

/-- The end of an array or an object closes its frame and hands the value on. -/
private theorem isWritable_of_endValue (hstack : ∀ f ∈ stack, f.IsWritable)
    (h : endValue stack token = some s') : s'.IsWritable := by
  unfold endValue at h
  split at h
  · obtain rfl := Option.some.inj h
    -- The items are collected backwards, and have been writable since they were.
    rw [List.forall_mem_cons] at hstack
    refine isWritable_supply (isWritable_array.2 fun j hj => ?_) hstack.2
    exact hstack.1 j (List.mem_reverse.1 hj)
  · obtain rfl := Option.some.inj h
    rw [List.forall_mem_cons] at hstack
    exact isWritable_supply (isWritable_close hstack.1) hstack.2
  · cases h

/-- Reading a token keeps the numbers of all that has been read. -/
private theorem isWritable_of_step? (hs : s.IsWritable) (htoken : token.IsWritable)
    (h : step? s token = some s') : s'.IsWritable := by
  unfold step? at h
  -- The cases are those of what may come next.
  split at h
  · exact isWritable_of_beginValue hs.stack htoken h
  · exact isWritable_of_endValue hs.stack h
  · exact isWritable_of_beginValue hs.stack htoken h
  · exact isWritable_of_endValue hs.stack h
  · obtain rfl := Option.some.inj h
    exact ⟨hs.stack, nofun⟩
  · obtain rfl := Option.some.inj h
    exact ⟨hs.stack, nofun⟩
  · split at h
    · next hstack =>
      obtain rfl := Option.some.inj h
      have hframes := hs.stack
      rw [hstack, List.forall_mem_cons] at hframes
      exact ⟨List.forall_mem_cons.2 hframes, nofun⟩
    · cases h
  · split at h
    · obtain rfl := Option.some.inj h
      exact ⟨hs.stack, nofun⟩
    · obtain rfl := Option.some.inj h
      exact ⟨hs.stack, nofun⟩
    · cases h
  · exact isWritable_of_endValue hs.stack h
  · cases h

end Parser

/-- What is read from JSON text has the numbers that JSON text has. -/
theorem isWritable_of_parse? {text : String} {j : Json} (h : parse? text = some j) :
    j.isWritable := by
  obtain ⟨tokens, htokens, h⟩ := Option.bind_eq_some_iff.1 h
  obtain ⟨s, hs, h⟩ := Option.bind_eq_some_iff.1 h
  have hstart : ({} : Parser.State).IsWritable := ⟨List.forall_mem_nil _, nofun⟩
  have hread : s.IsWritable := of_foldlM
    (fun t ht _ _ hs => Parser.isWritable_of_step? hs (Token.isWritable_of_scan? htokens t ht))
    hstart hs
  split at h
  · next hresult =>
    obtain rfl := Option.some.inj h
    exact hread.result _ hresult
  · cases h

end Weir.Json

namespace Weir.Source

/-- The numbers in a program that is read from text are finite. -/
private theorem Program.isFinite_of_ofText? {text : String} {p : Program}
    (h : Program.ofText? text = some p) : ∀ x ∈ p.floats, x.isFinite := by
  obtain ⟨j, hj, h⟩ := Option.bind_eq_some_iff.1 h
  exact Program.isFinite_of_ofJson? (Json.isWritable_of_parse? hj) h

/-- What is written for a program that is read from text is read as that program. -/
theorem Program.ofJson?_toJson_of_ofText? {text : String} {p : Program} {limit : Nat}
    (h : Program.ofText? text = some p) (hlimit : p.toJson.depth ≤ limit) :
    Program.ofJson? limit p.toJson = some p :=
  Program.ofJson?_toJson hlimit (Program.isFinite_of_ofText? h)

end Weir.Source
