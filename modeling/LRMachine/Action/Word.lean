import LRMachine.Action
import LRMachine.Error

/-!
# Action words

Tables store an action as one 32-bit word with the fields

* bits 0 to 15: the target state of a shift, the term of a reduction;
* bit 16: set on reductions;
* bit 17: on a reduction, the fold of a repetition; on a shift, a push without consuming;
* bit 18: stay;
* bits 19 to 31: the depth of a reduction.

`Word.Fields.ofWord` and `Word.Fields.toWord` are the only places that know the layout, and
`ofWord_toWord` and `toWord_ofWord` say that nothing is lost between them. The word 0 marks an
absent entry; the largest depth is one less than fits, so that no cell of a stored word is the end
mark.
-/

namespace LRMachine

namespace Word

/-- The fields of an action word. -/
structure Fields where
  value : Nat
  reduces : Bool
  /-- Bit 17, a fold or a push. -/
  turn : Bool
  stays : Bool
  depth : Nat
deriving DecidableEq, Repr

/-- Every field fits its bits. -/
def Fields.Fits (f : Fields) : Prop := f.value < 65536 ∧ f.depth < 8192

/-- Takes a word apart. -/
def Fields.ofWord (word : UInt32) : Fields where
  value := word.toNat % 65536
  reduces := word.toNat / 65536 % 2 == 1
  turn := word.toNat / 131072 % 2 == 1
  stays := word.toNat / 262144 % 2 == 1
  depth := word.toNat / 524288

/-- Puts a word together. -/
def Fields.toWord (f : Fields) : UInt32 :=
  UInt32.ofNat (f.value + 65536 * f.reduces.toNat + 131072 * f.turn.toNat +
    262144 * f.stays.toNat + 524288 * f.depth)

theorem Fields.fits_ofWord (word : UInt32) : (ofWord word).Fits := by
  have := word.toNat_lt
  simp only [Fits, ofWord]
  omega

theorem Fields.toNat_toWord {f : Fields} (h : f.Fits) :
    f.toWord.toNat = f.value + 65536 * f.reduces.toNat + 131072 * f.turn.toNat +
      262144 * f.stays.toNat + 524288 * f.depth := by
  obtain ⟨hv, hd⟩ := h
  have h1 := f.reduces.toNat_le
  have h2 := f.turn.toNat_le
  have h3 := f.stays.toNat_le
  rw [toWord, UInt32.toNat_ofNat']
  omega

private theorem toNat_beq_one_self (b : Bool) : (b.toNat == 1) = b := by cases b <;> rfl

theorem Fields.ofWord_toWord {f : Fields} (h : f.Fits) : ofWord f.toWord = f := by
  have e := toNat_toWord h
  have h1 := f.reduces.toNat_le
  have h2 := f.turn.toNat_le
  have h3 := f.stays.toNat_le
  obtain ⟨hv, hd⟩ := h
  have hvalue : f.toWord.toNat % 65536 = f.value := by omega
  have hreduces : f.toWord.toNat / 65536 % 2 = f.reduces.toNat := by omega
  have hturn : f.toWord.toNat / 131072 % 2 = f.turn.toNat := by omega
  have hstays : f.toWord.toNat / 262144 % 2 = f.stays.toNat := by omega
  have hdepth : f.toWord.toNat / 524288 = f.depth := by omega
  simp only [ofWord, hvalue, hreduces, hturn, hstays, hdepth, toNat_beq_one_self]

private theorem toNat_beq_one (n : Nat) : (n % 2 == 1).toNat = n % 2 := by
  rcases Nat.mod_two_eq_zero_or_one n with h | h <;> simp [h]

theorem Fields.toWord_ofWord (word : UInt32) : (ofWord word).toWord = word := by
  have e := toNat_toWord (fits_ofWord word)
  apply UInt32.toNat_inj.mp
  rw [e]
  simp only [ofWord, toNat_beq_one]
  omega

end Word

namespace Action

open Word

/-- The largest depth that a word stores. -/
def maxDepth : Nat := 8190

/-- The two table cells of a word, the low half first. -/
def split (word : UInt32) : UInt16 × UInt16 :=
  (UInt16.ofNat (word.toNat % 65536), UInt16.ofNat (word.toNat / 65536))

/-- The word of two table cells. -/
def join (low high : UInt16) : UInt32 := UInt32.ofNat (low.toNat + 65536 * high.toNat)

theorem join_split (word : UInt32) : join (split word).1 (split word).2 = word := by
  have := word.toNat_lt
  apply UInt32.toNat_inj.mp
  simp only [join, split, UInt32.toNat_ofNat', UInt16.toNat_ofNat']
  omega

theorem split_join (low high : UInt16) : split (join low high) = (low, high) := by
  have hl := low.toNat_lt
  have hh := high.toNat_lt
  apply Prod.ext <;> apply UInt16.toNat_inj.mp <;>
    simp only [join, split, UInt32.toNat_ofNat', UInt16.toNat_ofNat'] <;> omega

/-- The action of a word. Refused are the absent action, a word whose value is the end mark, a depth
above the largest one, and a shift with depth bits, with both modifiers or to state 0 without
staying. -/
def decode (word : UInt32) : Except Error Action :=
  let f := Fields.ofWord word
  if word = 0 then .error .absentAction
  else if f.value = endMark.toNat then .error (.malformedAction word)
  else if f.reduces then
    if f.depth > maxDepth then .error (.malformedAction word)
    else .ok (.reduce ⟨UInt16.ofNat f.value, UInt16.ofNat f.depth, f.turn, f.stays⟩)
  else if f.depth ≠ 0 then .error (.malformedAction word)
  else
    match f.turn, f.stays with
    | true, true => .error (.malformedAction word)
    | true, false =>
      if f.value = 0 then .error (.malformedAction word) else .ok (.push (UInt16.ofNat f.value))
    | false, true => .ok (.skip (UInt16.ofNat f.value))
    | false, false =>
      if f.value = 0 then .error (.malformedAction word) else .ok (.shift (UInt16.ofNat f.value))

/-- The word of the given parts. A shift has no fold flag, no depth and not both other flags, and
reaches state 0 only by staying; a reduction has no push flag. -/
def pack (kind : ActionKind) (value : UInt32) (flags : ActionFlags) (depth : UInt32) :
    Except Error UInt32 :=
  if value.toNat ≥ endMark.toNat then .error (.valueOutOfRange value)
  else if depth.toNat > maxDepth then .error (.depthOutOfRange depth)
  else
    match kind with
    | .shift =>
      let word := (Fields.mk value.toNat false flags.push flags.stay depth.toNat).toWord
      if flags.fold || depth != 0 || (flags.push && flags.stay) then .error (.malformedAction word)
      else if value = 0 && !flags.stay then .error .shiftToStartState
      else .ok word
    | .reduce =>
      let turn := flags.fold || flags.push
      let word := (Fields.mk value.toNat true turn flags.stay depth.toNat).toWord
      if flags.push then .error (.malformedAction word) else .ok word

/-- The word of an action. -/
def encode (a : Action) : Except Error UInt32 :=
  pack a.kind a.value.toUInt32 a.flags a.depth.toUInt32

end Action

end LRMachine
