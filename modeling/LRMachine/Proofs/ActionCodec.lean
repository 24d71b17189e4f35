import LRMachine.Action.Word

/-!
# Action words and actions

An action has a word exactly if its parts fit the fields of one and it is no shift to state 0
(`encode_eq_ok_iff`), and it is read back from its word (`decode_of_encode`). A word that can be
read is that of the action which is read (`encode_eq_ok_iff_decode`), and parts make a word exactly
if they are parts of an action that has one (`pack_eq_ok_iff`): actions and their words correspond
one to one (`encode_bijective`).
-/

namespace LRMachine

namespace Word

theorem Fields.toWord_ne_zero {f : Fields} (h : f.Fits) (hne : f ≠ ofWord 0) : f.toWord ≠ 0 := by
  intro hzero
  have hfields := ofWord_toWord h
  rw [hzero] at hfields
  exact hne hfields.symm

end Word

/-- The flags without the bits that have no meaning. -/
def ActionFlags.known (f : ActionFlags) : ActionFlags := .ofBools f.stay f.fold f.push

namespace Action

open Word ActionFlags

/-- The fields of the action's word. -/
def fields (a : Action) : Fields where
  value := a.value.toNat
  reduces := decide (a.kind = .reduce)
  turn := a.flags.fold || a.flags.push
  stays := a.flags.stay
  depth := a.depth.toNat

@[simp] theorem fields_shift (target : StateId) :
    (shift target).fields = ⟨target.toNat, false, false, false, 0⟩ := by
  simp [fields, kind, value, flags, depth, stay_ofBools, fold_ofBools, push_ofBools]

@[simp] theorem fields_push (target : StateId) :
    (push target).fields = ⟨target.toNat, false, true, false, 0⟩ := by
  simp [fields, kind, value, flags, depth, stay_ofBools, fold_ofBools, push_ofBools]

@[simp] theorem fields_skip (state : StateId) :
    (skip state).fields = ⟨state.toNat, false, false, true, 0⟩ := by
  simp [fields, kind, value, flags, depth, stay_ofBools, fold_ofBools, push_ofBools]

@[simp] theorem fields_reduce (r : Reduction) :
    (reduce r).fields = ⟨r.term.toNat, true, r.repeats, r.stays, r.depth.toNat⟩ := by
  simp [fields, kind, value, flags, depth, stay_ofBools, fold_ofBools, push_ofBools]

/-- The action fits a word and is told apart from an absent one. -/
structure HasWord (a : Action) : Prop where
  value_lt : a.value.toNat < endMark.toNat
  depth_le : a.depth.toNat ≤ maxDepth
  value_ne : a.kind = .shift → a.flags.stay = false → a.value ≠ 0

theorem HasWord.fits {a : Action} (h : a.HasWord) : a.fields.Fits :=
  ⟨Nat.lt_of_lt_of_le h.value_lt (by decide), Nat.lt_of_le_of_lt h.depth_le (by decide)⟩

theorem hasWord_iff {a : Action} :
    a.HasWord ↔ a.value.toNat < endMark.toNat ∧ a.depth.toNat ≤ maxDepth ∧
      (a.kind = .shift → a.flags.stay = false → a.value ≠ 0) :=
  ⟨fun h => ⟨h.1, h.2, h.3⟩, fun h => ⟨h.1, h.2.1, h.2.2⟩⟩

theorem ite_error_eq_ok_iff {α : Type} {c : Prop} [Decidable c] {e : Error} {x : Except Error α}
    {a : α} : (if c then .error e else x) = .ok a ↔ ¬ c ∧ x = .ok a := by
  split <;> simp [*]

theorem encode_eq_ok_iff {a : Action} {word : UInt32} :
    a.encode = .ok word ↔ a.HasWord ∧ a.fields.toWord = word := by
  have hzero : ∀ c : UInt16, c.toUInt32 = 0 ↔ c = 0 := fun c => by
    rw [← UInt32.toNat_inj, ← UInt16.toNat_inj, UInt16.toNat_toUInt32]
    rfl
  rw [hasWord_iff]
  cases a with
  | skip state =>
    simp [encode, pack, kind, value, flags, depth, stay_ofBools, fold_ofBools, push_ofBools,
      ite_error_eq_ok_iff]
  | _ =>
    simp [encode, pack, kind, value, flags, depth, stay_ofBools, fold_ofBools, push_ofBools,
      ite_error_eq_ok_iff, hzero, and_assoc]

/-- An action that fits a word is what the word of its fields holds. -/
theorem decode_fields {a : Action} (h : a.HasWord) : decode a.fields.toWord = .ok a := by
  have hfields := Fields.ofWord_toWord h.fits
  have hmark : a.fields.value ≠ endMark.toNat := Nat.ne_of_lt h.value_lt
  have hdepth : ¬ a.fields.depth > maxDepth := Nat.not_lt.mpr h.depth_le
  have hvalue : a.kind = .shift → a.fields.stays = false → a.fields.value ≠ 0 :=
    fun hkind hstay hzero => h.value_ne hkind hstay (UInt16.toNat_inj.mp hzero)
  have hzero : a.fields.toWord ≠ 0 := by
    refine Fields.toWord_ne_zero h.fits fun heq => ?_
    rw [heq] at hvalue
    cases a with
    | shift target => exact hvalue rfl rfl rfl
    | push target => exact hvalue rfl rfl rfl
    | skip state => cases congrArg Fields.stays (fields_skip state ▸ heq)
    | reduce r => cases congrArg Fields.reduces (fields_reduce r ▸ heq)
  simp only [decode, hfields, if_neg hzero, if_neg hmark, if_neg hdepth]
  cases a with
  | shift target => simpa [kind] using hvalue
  | push target => simpa [kind] using hvalue
  | skip state => simp
  | reduce r => simp

theorem decode_of_encode {a : Action} {word : UInt32} (h : a.encode = .ok word) :
    decode word = .ok a := by
  obtain ⟨hword, rfl⟩ := encode_eq_ok_iff.mp h
  exact decode_fields hword

/-! ## Every word that is read is the word of its action -/

theorem fields_of_decode {a : Action} {word : UInt32} (h : decode word = .ok a) :
    a.HasWord ∧ a.fields = Fields.ofWord word := by
  obtain ⟨hvalue, hdepth⟩ := Fields.fits_ofWord word
  unfold decode at h
  generalize Fields.ofWord word = f at h hvalue hdepth ⊢
  obtain ⟨value, reduces, turn, stays, depth⟩ := f
  dsimp only at h hvalue hdepth
  obtain ⟨-, h⟩ := ite_error_eq_ok_iff.mp h
  obtain ⟨hmark, h⟩ := ite_error_eq_ok_iff.mp h
  have hmark : value < endMark.toNat := Nat.lt_of_le_of_ne (Nat.le_of_lt_succ hvalue) hmark
  have hcell : (UInt16.ofNat value).toNat = value := UInt16.toNat_ofNat_of_lt hvalue
  have hstate : value ≠ 0 → UInt16.ofNat value ≠ 0 := by
    intro hne hzero
    rw [hzero] at hcell
    exact hne hcell.symm
  cases reduces with
  | true =>
    obtain ⟨hmax, h⟩ := ite_error_eq_ok_iff.mp h
    have hdepth : (UInt16.ofNat depth).toNat = depth :=
      UInt16.toNat_ofNat_of_lt (Nat.lt_of_lt_of_le hdepth (by decide))
    cases h
    refine ⟨⟨hcell.symm ▸ hmark, hdepth.symm ▸ Nat.le_of_not_lt hmax, nofun⟩, ?_⟩
    rw [fields_reduce, hcell, hdepth]
  | false =>
    obtain ⟨hnone, h⟩ := ite_error_eq_ok_iff.mp h
    obtain rfl : depth = 0 := Decidable.not_not.mp hnone
    cases turn <;> cases stays
    · obtain ⟨hne, h⟩ := ite_error_eq_ok_iff.mp h
      cases h
      exact ⟨⟨hcell.symm ▸ hmark, Nat.zero_le _, fun _ _ => hstate hne⟩,
        by rw [fields_shift, hcell]⟩
    · cases h
      have hstay : (skip (UInt16.ofNat value)).flags.stay = true := stay_ofBools true false false
      exact ⟨⟨hcell.symm ▸ hmark, Nat.zero_le _, fun _ hgo => absurd (hstay.symm.trans hgo) nofun⟩,
        by rw [fields_skip, hcell]⟩
    · obtain ⟨hne, h⟩ := ite_error_eq_ok_iff.mp h
      cases h
      exact ⟨⟨hcell.symm ▸ hmark, Nat.zero_le _, fun _ _ => hstate hne⟩, by rw [fields_push, hcell]⟩
    · cases h

/-- An action is written as a word exactly if it is read from it. -/
theorem encode_eq_ok_iff_decode {a : Action} {word : UInt32} :
    a.encode = .ok word ↔ decode word = .ok a := by
  constructor
  · exact decode_of_encode
  · intro h
    obtain ⟨hword, hfields⟩ := fields_of_decode h
    refine encode_eq_ok_iff.mpr ⟨hword, ?_⟩
    rw [hfields, Fields.toWord_ofWord]

/-! ## The cells of a word -/

/-- No cell of an action's word is the end mark: the deepest reduction stays just below it. -/
theorem HasWord.split_ne_endMark {a : Action} (h : a.HasWord) :
    (split a.fields.toWord).1 ≠ endMark ∧ (split a.fields.toWord).2 ≠ endMark := by
  have hword := Fields.toNat_toWord h.fits
  have hvalue : a.fields.value < 65535 := h.value_lt
  have hdepth : a.fields.depth ≤ 8190 := h.depth_le
  have hreduces := a.fields.reduces.toNat_le
  have hturn := a.fields.turn.toNat_le
  have hstays := a.fields.stays.toNat_le
  have hmark : endMark.toNat = 65535 := rfl
  constructor
  · intro hlow
    have hcell := congrArg UInt16.toNat hlow
    simp only [split, UInt16.toNat_ofNat'] at hcell
    omega
  · intro hhigh
    have hcell := congrArg UInt16.toNat hhigh
    simp only [split, UInt16.toNat_ofNat'] at hcell
    omega

theorem HasWord.word_ne_zero {a : Action} (h : a.HasWord) : a.fields.toWord ≠ 0 := by
  intro hzero
  have hread := decode_fields h
  rw [hzero] at hread
  cases hread

/-! ## Words of given parts -/

/-- The parts that make the word of an action: they fit its fields, a shift has no fold flag, no
depth and not both other flags and reaches state 0 only by staying, and a reduction does not
push. -/
structure Packs (kind : ActionKind) (value : UInt32) (flags : ActionFlags) (depth : UInt32) :
    Prop where
  value_lt : value.toNat < endMark.toNat
  depth_le : depth.toNat ≤ maxDepth
  shift : kind = .shift → depth = 0 ∧ flags.fold = false ∧
    ¬ (flags.push = true ∧ flags.stay = true) ∧ (flags.stay = false → value ≠ 0)
  reduce : kind = .reduce → flags.push = false

theorem packs_of_pack {kind : ActionKind} {value : UInt32} {flags : ActionFlags}
    {depth word : UInt32} (h : pack kind value flags depth = .ok word) :
    Packs kind value flags depth := by
  unfold pack at h
  obtain ⟨hvalue, h⟩ := ite_error_eq_ok_iff.mp h
  obtain ⟨hdepth, h⟩ := ite_error_eq_ok_iff.mp h
  refine ⟨Nat.lt_of_not_le hvalue, Nat.le_of_not_lt hdepth, ?_, ?_⟩
  · rintro rfl
    obtain ⟨hshape, h⟩ := ite_error_eq_ok_iff.mp h
    obtain ⟨hstart, -⟩ := ite_error_eq_ok_iff.mp h
    simp only [Bool.or_eq_true, Bool.and_eq_true, bne_iff_ne, not_or, Decidable.not_not,
      Bool.not_eq_true] at hshape
    obtain ⟨⟨hfold, hdepth⟩, hboth⟩ := hshape
    refine ⟨hdepth, hfold, hboth, fun hstay hzero => hstart ?_⟩
    rw [hzero, hstay]
    rfl
  · rintro rfl
    obtain ⟨hpush, -⟩ := ite_error_eq_ok_iff.mp h
    simpa using hpush

theorem Packs.exists_action {kind : ActionKind} {value : UInt32} {flags : ActionFlags}
    {depth : UInt32} (h : Packs kind value flags depth) :
    ∃ a : Action, a.HasWord ∧ a.kind = kind ∧ a.value.toUInt32 = value ∧
      a.flags = flags.known ∧ a.depth.toUInt32 = depth := by
  -- the value and the depth fit the fields, so nothing is lost when they are narrowed
  have hvalueLt : value.toUInt16.toNat < endMark.toNat := by
    rw [UInt32.toNat_toUInt16]
    exact Nat.lt_of_le_of_lt (Nat.mod_le _ _) h.value_lt
  have hvalue : value.toUInt16.toUInt32 = value := by
    have hlt : value.toNat < 65536 := Nat.lt_trans h.value_lt (by decide)
    rw [← UInt32.toNat_inj, UInt16.toNat_toUInt32, UInt32.toNat_toUInt16, Nat.mod_eq_of_lt hlt]
  have hdepthLe : depth.toUInt16.toNat ≤ maxDepth := by
    rw [UInt32.toNat_toUInt16]
    exact Nat.le_trans (Nat.mod_le _ _) h.depth_le
  have hdepth : depth.toUInt16.toUInt32 = depth := by
    have hlt : depth.toNat < 65536 := Nat.lt_of_le_of_lt h.depth_le (by decide)
    rw [← UInt32.toNat_inj, UInt16.toNat_toUInt32, UInt32.toNat_toUInt16, Nat.mod_eq_of_lt hlt]
  cases kind with
  | reduce =>
    refine ⟨.reduce ⟨value.toUInt16, depth.toUInt16, flags.fold, flags.stay⟩,
      ⟨hvalueLt, hdepthLe, nofun⟩, rfl, hvalue, ?_, hdepth⟩
    rw [known, h.reduce rfl]
    rfl
  | shift =>
    obtain ⟨rfl, hfold, hboth, hstart⟩ := h.shift rfl
    have hne : flags.stay = false → value.toUInt16 ≠ 0 := by
      intro hstay hzero
      rw [hzero] at hvalue
      exact hstart hstay hvalue.symm
    cases hpush : flags.push with
    | true =>
      have hstay : flags.stay = false := by simpa [hpush] using hboth
      refine ⟨.push value.toUInt16, ⟨hvalueLt, Nat.zero_le _, fun _ _ => hne hstay⟩, rfl, hvalue,
        ?_, rfl⟩
      rw [known, hpush, hstay, hfold]
      rfl
    | false =>
      cases hstay : flags.stay with
      | true =>
        refine ⟨.skip value.toUInt16, ⟨hvalueLt, Nat.zero_le _, fun _ hgo => ?_⟩, rfl, hvalue,
          ?_, rfl⟩
        · exact absurd ((stay_ofBools true false false).symm.trans hgo) nofun
        · rw [known, hpush, hstay, hfold]
          rfl
      | false =>
        refine ⟨.shift value.toUInt16, ⟨hvalueLt, Nat.zero_le _, fun _ _ => hne hstay⟩, rfl,
          hvalue, ?_, rfl⟩
        rw [known, hpush, hstay, hfold]
        rfl

/-- Bits of the flag byte that have no meaning do not matter. -/
theorem pack_known (kind : ActionKind) (value : UInt32) (flags : ActionFlags) (depth : UInt32) :
    pack kind value flags.known depth = pack kind value flags depth := by
  simp only [pack, known, stay_ofBools, fold_ofBools, push_ofBools]

/-- Parts make a word exactly if they are those of an action that has one, and it is its word. -/
theorem pack_eq_ok_iff {kind : ActionKind} {value : UInt32} {flags : ActionFlags}
    {depth word : UInt32} :
    pack kind value flags depth = .ok word ↔
      ∃ a : Action, a.encode = .ok word ∧ a.kind = kind ∧ a.value.toUInt32 = value ∧
        a.flags = flags.known ∧ a.depth.toUInt32 = depth := by
  constructor
  · intro h
    obtain ⟨a, -, hkind, hvalue, hflags, hdepth⟩ := (packs_of_pack h).exists_action
    refine ⟨a, ?_, hkind, hvalue, hflags, hdepth⟩
    rw [encode, hkind, hvalue, hflags, hdepth, pack_known, h]
  · rintro ⟨a, ha, rfl, rfl, hflags, rfl⟩
    rw [← pack_known, ← hflags]
    exact ha

/-- Actions and the words they are read from correspond one to one. The word of an action is never
0 and neither of its cells, which join to it again, is the end mark. Parts are made a word exactly
if they are parts of an action, which is what is read back. -/
theorem encode_bijective :
    (∀ (a : Action) (word : UInt32), a.encode = .ok word →
      word ≠ 0 ∧ decode word = .ok a ∧ join (split word).1 (split word).2 = word ∧
        (split word).1 ≠ endMark ∧ (split word).2 ≠ endMark) ∧
    (∀ (a : Action) (word : UInt32), decode word = .ok a → a.encode = .ok word) ∧
    ∀ (kind : ActionKind) (value : UInt32) (flags : ActionFlags) (depth : UInt32),
      ((∃ word, pack kind value flags depth = .ok word) ↔ Packs kind value flags depth) ∧
      ∀ word, pack kind value flags depth = .ok word →
        ∃ a, decode word = .ok a ∧ a.kind = kind ∧ a.value.toUInt32 = value ∧
          a.flags = flags.known ∧ a.depth.toUInt32 = depth := by
  refine ⟨fun a word h => ?_, fun a word h => encode_eq_ok_iff_decode.mpr h,
    fun kind value flags depth => ⟨⟨fun ⟨word, h⟩ => packs_of_pack h, fun h => ?_⟩,
      fun word h => ?_⟩⟩
  · obtain ⟨hword, rfl⟩ := encode_eq_ok_iff.mp h
    exact ⟨hword.word_ne_zero, decode_of_encode h, join_split _, hword.split_ne_endMark⟩
  · obtain ⟨a, hword, hparts⟩ := h.exists_action
    exact ⟨_, pack_eq_ok_iff.mpr ⟨a, encode_eq_ok_iff.mpr ⟨hword, rfl⟩, hparts⟩⟩
  · obtain ⟨a, ha, hparts⟩ := pack_eq_ok_iff.mp h
    exact ⟨a, decode_of_encode ha, hparts⟩

/-- The deepest reduction of the last term in front of the end mark: with all its flags, its high
cell is eight below the mark, also where the flag byte has bits without meaning. -/
theorem encode_bijective_deepest :
    (Action.reduce ⟨0xfffe, 8190, true, true⟩).encode = .ok 0xfff7fffe ∧
      decode 0xfff7fffe = .ok (.reduce ⟨0xfffe, 8190, true, true⟩) ∧
      (split 0xfff7fffe).2 ≠ endMark ∧ pack .reduce 0xfffe ⟨0xfb⟩ 8190 = .ok 0xfff7fffe ∧
      Packs .reduce 0xfffe ⟨0xfb⟩ 8190 := by
  have hencode : (Action.reduce ⟨0xfffe, 8190, true, true⟩).encode = .ok 0xfff7fffe := rfl
  have hpack : pack .reduce 0xfffe ⟨0xfb⟩ 8190 = .ok 0xfff7fffe := rfl
  obtain ⟨hwords, -, hparts⟩ := encode_bijective
  obtain ⟨-, hdecode, -, -, hhigh⟩ := hwords _ _ hencode
  exact ⟨hencode, hdecode, hhigh, hpack, (hparts _ _ _ _).1.mp ⟨_, hpack⟩⟩

end Action

end LRMachine
