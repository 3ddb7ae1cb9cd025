import MongolDb.Bson.ValidatorInvariant

/-! The validator accepts exactly the documents of the grammar. -/
namespace MongolDb.Bson
open ByteOrder ByteLayout Outcome Buffer Machine

/-! What is accepted is a document. -/

section
variable {decimal : Bool} {b : Bytes} {m : Machine}

/-- Each round reads on or closes a frame. -/
def Machine.roundsLeft (b : Bytes) (m : Machine) : Nat :=
  2 * (b.length - m.position) + m.frames.length

theorem withinObj_roundsLeft :
    Holds (fun _ => False) (fun m' : Machine => m'.roundsLeft b < m.roundsLeft b)
      (m.withinObj decimal b) := by
  obtain ⟨hframes, hposition⟩ := noteIdElem_spec m
  rw [withinObj]
  refine ((validateElementInfo_holds _).of_blamed fun _ => False.elim).bind ?_
  rintro ⟨s, p'⟩ hinfo
  have hlt := hinfo.lt
  dsimp only at hlt ⊢
  cases m.noteIdElem.findIdElem b s with
  | error err => exact not_false
  | ok start =>
    change 2 * (b.length - p') + m.noteIdElem.frames.length < 2 * (b.length - m.position) + m.frames.length
    rw [hframes]
    omega

theorem step_roundsLeft (hdone : m.state ≠ .done) :
    Holds (fun _ => False) (fun m' : Machine => m'.roundsLeft b < m.roundsLeft b)
      (m.step decimal b) := by
  obtain ⟨frames, state, p, idStart, idElem⟩ := m
  cases state with
  | done => exact absurd rfl hdone
  | withinObj => exact withinObj_roundsLeft
  | beginObj =>
    rw [step]
    refine ((readInt_holds not_astray).of_blamed fun _ => False.elim).bind ?_
    rintro ⟨n, p'⟩ ⟨u, hu, hat, hr⟩
    cases hr
    have hbound := hat.bound (by rintro rfl; cases hu)
    refine withinObj_roundsLeft.mono ?_
    intro m' hm'
    simp only [roundsLeft, openFrame, List.length_cons] at hm' ⊢
    dsimp only at hbound
    omega
  | endObj | endCodeWScope =>
    cases frames with
    | nil => exact not_false
    | cons f frames =>
      rw [step]
      dsimp only
      split
      · exact not_false
      · cases frames <;> first | exact Nat.lt_succ_self _ | exact not_false
  | beginCodeWScope =>
    rw [step]
    refine ((readInt_holds not_astray).of_blamed fun _ => False.elim).bind ?_
    rintro ⟨n, p'⟩ ⟨u, hu, hat, hr⟩
    cases hr
    have hbound := hat.bound (by rintro rfl; cases hu)
    refine (readUTF8String_holds.of_blamed fun _ => False.elim).bind ?_
    rintro p' ⟨s, -, rfl, -⟩
    change roundsLeft b _ < _
    simp only [roundsLeft, openFrame, List.length_cons]
    dsimp only at hbound
    omega

/-- With enough rounds the loop comes to a document or reports an error. -/
theorem iterative_holds (hlen : b.length < 2 ^ 31) {fuel : Nat} (h : Sound decimal b m)
    (hfuel : m.roundsLeft b < fuel) :
    Holds Halt.Astray
      (fun _ => ∃ elems, elemsKnown decimal elems = true ∧ At b 0 (encodeDocument elems))
      (validateBSONIterative decimal b fuel m) := by
  induction fuel generalizing m with
  | zero => omega
  | succ fuel ih =>
    rw [validateBSONIterative]
    split
    next hdone =>
      rw [Sound, hdone] at h
      generalize m.frames = frames at h
      cases h with
      | done known hat => exact ⟨_, known, hat⟩
    next hdone =>
      have hsound := step_sound hlen h hdone
      have hless := @step_roundsLeft decimal b m hdone
      cases hstep : m.step decimal b with
      | error err =>
        rw [hstep] at hsound
        exact hsound
      | ok m' =>
        rw [hstep] at hsound hless
        exact ih hsound (by have : m'.roundsLeft b < m.roundsLeft b := hless; omega)

theorem validateBSON_holds (hlen : b.length < 2 ^ 31) :
    Holds Halt.Astray
      (fun _ => ∃ elems, elemsKnown decimal elems = true ∧ At b 0 (encodeDocument elems))
      (validateBSON decimal b) := by
  rw [validateBSON]
  split
  · exact not_false
  · refine iterative_holds hlen (.beginObj .root rfl) ?_
    simp [roundsLeft, start]

end

/-! Every document is accepted. -/

section
variable {b : Bytes} {p : Nat} {failed : Halt} {u s : Bytes} {idElem : Option Nat}

theorem readInt_eq (hu : u.length = 4) (hat : At b p u) :
    readInt b p failed = .ok (toInt32 (ofLe u), p + 4) := by
  have hbound := hat.bound (by rintro rfl; cases hu)
  rw [hu] at hbound
  have hread := hat.take_eq
  rw [hu] at hread
  rw [readInt, if_neg (by omega), Buffer.read, if_pos (.inr hbound), hread]
  rfl

theorem readByte_eq {c : UInt8} (h : b[p]? = some c) : readByte b p failed = .ok (c, p + 1) := by
  have hlt := (List.getElem?_eq_some_iff.mp h).1
  rw [readByte, if_neg (by omega), byteAt, h]
  rfl

theorem readCString_eq {s : CString} (h : At b p s.encode) :
    readCString b p idElem = .ok (p + s.encode.length) := by
  have hbound := h.bound (by simp [CString.encode])
  rw [readCString, if_neg (by omega), strlen_eq h s.noNul, CString.encode, List.length_append]
  rfl

theorem skip_eq {n : Nat} (h : p + n < b.length) : skip b n p failed = .ok (p + n) := if_pos h

theorem readUTF8String_eq (hlen : b.length < 2 ^ 31) (h : At b p (encodeText s)) :
    readUTF8String b p idElem = .ok (p + (encodeText s).length) := by
  have hbound := h.bound (by simp [encodeText])
  rw [length_encodeText] at hbound
  have hparts := h
  rw [encodeText, at_append, at_append, List.length_append, length_le] at hparts
  obtain ⟨⟨hsize, -⟩, hzero⟩ := hparts
  have hint : toInt32 (ofLe (le 4 (s.length + 1))) = (s.length + 1 : Nat) := toInt32_le (by omega)
  have hnat : ((s.length + 1 : Nat) - 1 : Int).toNat = s.length := by omega
  have hchar : b[p + 4 + s.length]? = some 0 := by
    rw [Nat.add_assoc]
    exact at_singleton.mp hzero
  rw [readUTF8String, readInt_eq (length_le 4 _) hsize, hint, ok_bind]
  dsimp only
  rw [if_neg (by omega), hnat, skip_eq (by omega), ok_bind]
  rw [readByte_eq hchar, ok_bind]
  rw [length_encodeText]
  exact congrArg Except.ok (show p + 4 + s.length + 1 = p + (s.length + 5) by omega)

end

section Values
variable {decimal : Bool} {b : Bytes} {p : Nat} {idElem : Option Nat} {name : CString}

/-- A value that no frame is opened for. -/
def RawValue.isPlain : RawValue → Bool
  | .codeWScope .. | .document .. => false
  | _ => true

theorem validateValue_fixed {v : Fixed} (hknown : decimal = true ∨ v.type ≠ .numberDecimal)
    (hat : At b p v.bytes) (hbound : p + v.bytes.length < b.length) :
    validateValue decimal b (some v.type) p .withinObj idElem =
      .ok (.withinObj, p + v.bytes.length) := by
  obtain ⟨t, bytes, hsize, hbool⟩ := v
  -- what is skipped is the width of the type
  have hskip : ∀ (n : Nat) (failed : Halt), t.width = some n →
      (do return (.withinObj, ← skip b n p failed) : Except Halt (ValidationState × Nat)) =
        .ok (.withinObj, p + bytes.length) := by
    intro n failed hn
    rw [hsize] at hn
    rw [← Option.some.inj hn, skip_eq hbound]
    rfl
  have hempty : t.width = some 0 → (.ok (.withinObj, p) : Except Halt (ValidationState × Nat)) =
      .ok (.withinObj, p + bytes.length) := by
    intro hn
    rw [hsize] at hn
    rw [Option.some.inj hn]
    rfl
  cases t with
  | minKey | maxKey | jstNULL | undefined => exact hempty rfl
  | jstOID => exact hskip 12 _ rfl
  | numberInt => exact hskip 4 _ rfl
  | numberDouble | numberLong | bsonTimestamp | date => exact hskip 8 _ rfl
  | numberDecimal =>
    rw [validateValue, if_pos (hknown.resolve_right (fun hne => hne rfl))]
    exact hskip 16 _ rfl
  | bool =>
    have hval : ∃ c, bytes = [c] ∧ (c = 0 ∨ c = 1) := by
      rcases hbool rfl with rfl | rfl
      · exact ⟨0, rfl, .inl rfl⟩
      · exact ⟨1, rfl, .inr rfl⟩
    obtain ⟨c, rfl, hc⟩ := hval
    rw [validateValue, readByte_eq (at_singleton.mp hat), ok_bind]
    dsimp only
    rw [if_neg (fun hne => hc.elim hne.1 hne.2)]
    rfl
  | _ => cases hsize

theorem validateValue_eq (hlen : b.length < 2 ^ 31) {v : RawValue} (hv : v.isPlain = true)
    (hknown : v.known decimal = true) (hat : At b p v.encode) (hbound : p + v.encode.length < b.length) :
    validateValue decimal b (some v.type) p .withinObj idElem =
      .ok (.withinObj, p + v.encode.length) := by
  cases v with
  | codeWScope | document => cases hv
  | fixed v =>
    rw [RawValue.encode] at hat hbound ⊢
    exact validateValue_fixed (by simpa [RawValue.known] using hknown) hat hbound
  | text t ht s =>
    rw [RawValue.encode] at hat ⊢
    have hread := @readUTF8String_eq b p s idElem hlen hat
    have hreturn : (do return (.withinObj, ← readUTF8String b p idElem) :
        Except Halt (ValidationState × Nat)) = .ok (.withinObj, p + (encodeText s).length) := by
      rw [hread]
      rfl
    cases t <;> first | exact hreturn | cases ht
  | dbRef ns oid h =>
    rw [RawValue.encode] at hat ⊢
    rw [RawValue.type, validateValue, readUTF8String_eq hlen (at_append.mp hat).1, List.length_append, h,
      ← Nat.add_assoc]
    rfl
  | regEx pattern flags =>
    rw [RawValue.encode] at hat ⊢
    obtain ⟨hpattern, hflags⟩ := at_append.mp hat
    rw [RawValue.type, validateValue, readCString_eq hpattern, ok_bind]
    rw [readCString_eq hflags, List.length_append, ← Nat.add_assoc]
    rfl
  | binData subtype data =>
    rw [RawValue.encode] at hat hbound ⊢
    rw [List.length_append, length_le, List.length_cons] at hbound ⊢
    have hint := toInt32_le (v := data.length) (by omega)
    rw [RawValue.type, validateValue, readInt_eq (length_le 4 _) (at_append.mp hat).1, hint, ok_bind]
    dsimp only
    rw [if_neg (by omega), Int.toNat_natCast, skip_eq (by omega), ok_bind]
    have hend : p + 4 + (1 + data.length) = p + (4 + (data.length + 1)) := by omega
    rw [hend]
    rfl

theorem validateElementInfo_eq {t : BSONType} (hat : At b p (t.byte :: name.encode)) :
    validateElementInfo decimal b p .withinObj idElem =
      validateValue decimal b (some t) (p + 1 + name.encode.length) .withinObj idElem := by
  obtain ⟨hbyte, hname⟩ := at_cons.mp hat
  rw [validateElementInfo, readByte_eq hbyte]
  change (if t.byte = 0 then _ else (readCString b (p + 1) idElem >>= fun pos =>
    validateValue decimal b (BSONType.ofByte t.byte) pos .withinObj idElem)) = _
  rw [if_neg t.byte_ne_zero, readCString_eq hname, BSONType.ofByte_byte]
  rfl

end Values

/-- The variables of the loop but for those about the `_id` element. -/
abbrev Config := List Frame × ValidationState × Nat

def Machine.of (c : Config) (idElemStartPos : Nat) (idElem : Option Nat) : Machine :=
  ⟨c.1, c.2.1, c.2.2, idElemStartPos, idElem⟩

/-- In one round or more the loop gets from `c` to `c'`, whatever it knows of the `_id` element. -/
def Reaches (decimal : Bool) (b : Bytes) (c c' : Config) : Prop :=
  ∀ start id, ∃ n start' id', ∀ fuel, validateBSONIterative decimal b (fuel + n + 1) (.of c start id) =
    validateBSONIterative decimal b fuel (.of c' start' id')

/-- Where the loop goes on after an object, by the frames around it. -/
def afterObj : List Frame → ValidationState
  | [] => .done
  | f :: _ => if f.isCodeWithScope then .endCodeWScope else .withinObj

section Reaches
variable {decimal : Bool} {b : Bytes} {c c' c'' : Config} {f : Frame} {frames : List Frame} {p p' : Nat}
  {elems : RawObj} {e : CString × RawValue}

theorem Reaches.trans (h : Reaches decimal b c c') (h' : Reaches decimal b c' c'') :
    Reaches decimal b c c'' := by
  intro start id
  obtain ⟨n, start', id', hn⟩ := h start id
  obtain ⟨n', start'', id'', hn'⟩ := h' start' id'
  refine ⟨n' + 1 + n, start'', id'', ?_⟩
  intro fuel
  rw [← hn', ← hn]
  congr 1
  omega

theorem reaches_of_step {s : ValidationState} (hdone : s ≠ .done)
    (h : ∀ start id, ∃ start' id',
      (Machine.of (frames, s, p) start id).step decimal b = .ok (.of c' start' id')) :
    Reaches decimal b (frames, s, p) c' := by
  intro start id
  obtain ⟨start', id', hstep⟩ := h start id
  refine ⟨0, start', id', ?_⟩
  intro fuel
  rw [Nat.add_zero, validateBSONIterative, if_neg (by exact hdone), hstep]
  rfl

/-- Where one round does the same, the loop does. -/
theorem Reaches.of_same_step {frames' : List Frame} {s s' : ValidationState}
    (h : Reaches decimal b (frames, s, p) c'') (hs : s ≠ .done) (hs' : s' ≠ .done)
    (hstep : ∀ start id, (Machine.of (frames', s', p') start id).step decimal b =
      (Machine.of (frames, s, p) start id).step decimal b) :
    Reaches decimal b (frames', s', p') c'' := by
  intro start id
  obtain ⟨n, start', id', hn⟩ := h start id
  refine ⟨n, start', id', ?_⟩
  intro fuel
  rw [← hn, validateBSONIterative, validateBSONIterative, if_neg (by exact hs'), if_neg (by exact hs),
    hstep]

theorem reaches_of_info {s : ValidationState}
    (h : ∀ id, validateElementInfo decimal b p .withinObj id = .ok (s, p'))
    (hname : s ≠ .endObj → ∃ name : CString, At b (p + 1) name.encode) :
    Reaches decimal b (frames, .withinObj, p) (frames, s, p') := by
  refine reaches_of_step (by decide) ?_
  intro start id
  obtain ⟨hframes, hposition⟩ := noteIdElem_spec (.of (frames, .withinObj, p) start id)
  have hwithin : (of (frames, .withinObj, p) start id).step decimal b =
      (of (frames, .withinObj, p) start id).withinObj decimal b := rfl
  rw [hwithin, withinObj]
  generalize noteIdElem _ = m at hframes hposition
  rw [show m.position = p from hposition, h]
  obtain ⟨start', hfind⟩ := @findIdElem_eq_ok b m s (by rwa [hposition])
  refine ⟨start', m.idElem, ?_⟩
  change (m.findIdElem b s >>= fun idElemStartPos =>
    pure { m with state := s, position := p', idElemStartPos }) = _
  rw [hfind, ← show m.frames = frames from hframes]
  rfl

/-- The loop gets through a document. -/
def DocumentReached (decimal : Bool) (b : Bytes) (elems : RawObj) : Prop :=
  ∀ frames p, elemsKnown decimal elems = true → At b p (encodeDocument elems) →
    Reaches decimal b (frames, .beginObj, p) (frames, afterObj frames, p + (encodeDocument elems).length)

/-- A frame is closed where its size is right. -/
theorem reaches_endObj (hsize : f.expectedSize = toInt32 (p - f.startPosition)) :
    Reaches decimal b (f :: frames, .endObj, p) (frames, afterObj frames, p) := by
  refine reaches_of_step (by decide) ?_
  intro start id
  refine ⟨start, id, ?_⟩
  simp only [step, of, hsize, ne_eq, not_true_eq_false, if_false]
  cases frames <;> rfl

theorem reaches_endCodeWScope {g : Frame} (hsize : f.expectedSize = toInt32 (p - f.startPosition)) :
    Reaches decimal b (f :: g :: frames, .endCodeWScope, p) (g :: frames, .withinObj, p) := by
  refine reaches_of_step (by decide) ?_
  intro start id
  refine ⟨start, id, ?_⟩
  simp only [step, of, hsize, ne_eq, not_true_eq_false, if_false]
  rfl

section
variable (hlen : b.length < 2 ^ 31)
include hlen

theorem reaches_beginCodeWScope {u code : Bytes} (hu : u.length = 4)
    (hat : At b p u) (hcode : At b (p + 4) (encodeText code)) :
    Reaches decimal b (frames, .beginCodeWScope, p)
      (⟨p, true, toInt32 (ofLe u)⟩ :: frames, .beginObj, p + 4 + (encodeText code).length) := by
  refine reaches_of_step (by decide) ?_
  intro start id
  refine ⟨start, id, ?_⟩
  change step decimal b ⟨frames, .beginCodeWScope, p, start, id⟩ = _
  rw [step, bind_eq_ok]
  refine ⟨_, readInt_eq hu hat, ?_⟩
  rw [bind_eq_ok]
  refine ⟨_, readUTF8String_eq hlen hcode, ?_⟩
  change Except.ok (mk (⟨p % 2 ^ 31, true, toInt32 (ofLe u)⟩ :: frames) _ _ _ _) = _
  rw [(opened hlen hu hat).1]
  rfl

/-- The state that begins an object goes on within it. -/
theorem reaches_beginObj {u : Bytes} (hu : u.length = 4) (hat : At b p u)
    (h : Reaches decimal b (⟨p, false, toInt32 (ofLe u)⟩ :: frames, .withinObj, p + 4) c') :
    Reaches decimal b (frames, .beginObj, p) c' := by
  refine h.of_same_step (by decide) (by decide) ?_
  intro start id
  rw [step]
  change (readInt b p _ >>= fun r => withinObj decimal b
    (mk (⟨p % 2 ^ 31, false, r.1⟩ :: frames) .withinObj r.2 start id)) = _
  rw [readInt_eq hu hat, (opened hlen hu hat).1]
  rfl

theorem reaches_element (hf : f.isCodeWithScope = false)
    (hknown : e.2.known decimal = true) (hat : At b p (encodeElement e))
    (hbound : p + (encodeElement e).length < b.length)
    (hdoc : ∀ elems, (encodeDocument elems).length < (encodeElement e).length →
      DocumentReached decimal b elems) :
    Reaches decimal b (f :: frames, .withinObj, p) (f :: frames, .withinObj, p + (encodeElement e).length) := by
  obtain ⟨name, v⟩ := e
  have hlength := length_element name v
  obtain ⟨hheader, hv⟩ := at_element.mp hat
  have hinfo : ∀ s p', (∀ id, validateValue decimal b (some v.type) (p + 1 + name.encode.length)
      .withinObj id = .ok (s, p')) →
      Reaches decimal b (f :: frames, .withinObj, p) (f :: frames, s, p') := by
    intro s p' hs
    apply reaches_of_info ?_ fun _ => ⟨name, (at_cons.mp hheader).2⟩
    intro id
    rw [validateElementInfo_eq hheader, hs id]
  have hafter : afterObj (f :: frames) = .withinObj := by rw [afterObj, hf]; rfl
  rw [hlength, ← Nat.add_assoc, ← Nat.add_assoc] at hbound ⊢
  by_cases hplain : v.isPlain = true
  · exact hinfo _ _ fun id => validateValue_eq hlen hplain hknown hv hbound
  · cases v with
    | document t ht elems =>
      have hinfo := hinfo .beginObj _ fun id => by cases t <;> first | rfl | cases ht
      rw [RawValue.known] at hknown
      rw [encode_document] at hv hlength ⊢
      have hreach := hdoc elems (by omega) (f :: frames) _ hknown hv
      rw [hafter] at hreach
      exact hinfo.trans hreach
    | codeWScope code scope =>
      have hinfo := hinfo .beginCodeWScope _ fun id => rfl
      rw [RawValue.known] at hknown
      rw [encode_codeWScope] at hv hlength hbound ⊢
      generalize hsize : 4 + (encodeText code).length + (encodeDocument scope).length = size at *
      generalize p + 1 + name.encode.length = q at *
      rw [at_append, at_append, length_le, List.length_append, length_le, ← Nat.add_assoc] at hv
      obtain ⟨⟨hu, hcode⟩, hscope⟩ := hv
      simp only [List.length_append, length_le] at hlength hbound ⊢
      -- through the text, the scope and the end of the frame
      refine hinfo.trans ((reaches_beginCodeWScope hlen (length_le 4 size) hu hcode).trans ?_)
      refine (hdoc scope (by omega) _ _ hknown hscope).trans ?_
      have hend : q + 4 + (encodeText code).length + (encodeDocument scope).length = q + size := by omega
      rw [hend, show q + (4 + (encodeText code).length + (encodeDocument scope).length) = q + size by omega]
      apply reaches_endCodeWScope
      rw [toInt32_le (by omega), Nat.add_sub_cancel_left, toInt32_of_lt (by omega)]
    | _ => exact absurd rfl hplain

theorem reaches_elems (hf : f.isCodeWithScope = false)
    (hknown : elemsKnown decimal elems = true) (hat : At b p (encodeElems elems))
    (hbound : p + (encodeElems elems).length < b.length)
    (hdoc : ∀ inner, (encodeDocument inner).length < (encodeElems elems).length →
      DocumentReached decimal b inner)
    (h : Reaches decimal b (f :: frames, .withinObj, p + (encodeElems elems).length) c') :
    Reaches decimal b (f :: frames, .withinObj, p) c' := by
  induction elems generalizing p with
  | nil => simpa using h
  | cons e elems ih =>
    rw [encodeElems_cons, at_append] at hat
    rw [encodeElems_cons, List.length_append] at hbound hdoc h
    simp only [elemsKnown, Bool.and_eq_true] at hknown
    rw [← Nat.add_assoc] at h
    have hfirst : Reaches decimal b (f :: frames, .withinObj, p)
        (f :: frames, .withinObj, p + (encodeElement e).length) :=
      reaches_element hlen hf hknown.1 hat.1 (by omega) fun inner hlt => hdoc inner (by omega)
    exact hfirst.trans (ih hknown.2 hat.2 (by omega) (fun inner hlt => hdoc inner (by omega)) h)

theorem documentReached (elems : RawObj) : DocumentReached decimal b elems := by
  induction hn : (encodeDocument elems).length using Nat.strongRecOn generalizing elems with
  | ind n ih =>
    intro frames p hknown hat
    have hbound := hat.bound (by simp [encodeDocument])
    have hparts := hat
    rw [encodeDocument, at_append, at_append, List.length_append, length_le, ← Nat.add_assoc] at hparts
    obtain ⟨⟨hu, helems⟩, hzero⟩ := hparts
    rw [length_encodeDocument] at hn hbound
    apply reaches_beginObj hlen (length_le 4 _) hu
    apply reaches_elems hlen rfl hknown helems (by omega) (fun inner hlt => ih _ (by omega) inner rfl)
    have heoo : Reaches decimal b
        (⟨p, false, toInt32 (ofLe (le 4 ((encodeElems elems).length + 5)))⟩ :: frames, .withinObj,
          p + 4 + (encodeElems elems).length)
        (⟨p, false, toInt32 (ofLe (le 4 ((encodeElems elems).length + 5)))⟩ :: frames, .endObj,
          p + 4 + (encodeElems elems).length + 1) := by
      apply reaches_of_info ?_ fun hne => absurd rfl hne
      intro id
      rw [validateElementInfo, readByte_eq (at_singleton.mp hzero)]
      rfl
    have hend : p + 4 + (encodeElems elems).length + 1 = p + (encodeDocument elems).length := by
      rw [length_encodeDocument]
      omega
    rw [hend] at heoo
    refine heoo.trans (reaches_endObj ?_)
    rw [Nat.add_sub_cancel_left, length_encodeDocument, toInt32_le (by omega), toInt32_of_lt (by omega)]

end

end Reaches

section
variable {decimal : Bool} {b : Bytes} {m : Machine}

/-- More rounds do not change what the loop has come to. -/
theorem iterative_mono {fuel : Nat} {r : Except Halt Unit}
    (h : validateBSONIterative decimal b fuel m = r) (hr : r ≠ .error .outOfFuel) (n : Nat) :
    validateBSONIterative decimal b (fuel + n) m = r := by
  induction fuel generalizing m with
  | zero => exact absurd h.symm hr
  | succ fuel ih =>
    rw [Nat.add_right_comm, validateBSONIterative]
    rw [validateBSONIterative] at h
    split
    next hdone => rwa [if_pos hdone] at h
    next hdone =>
      rw [if_neg hdone] at h
      cases hstep : m.step decimal b with
      | error err => rwa [hstep] at h
      | ok m' =>
        rw [hstep] at h
        exact ih h

theorem validateBSON_eq_ok (hlen : b.length < 2 ^ 31) {elems : RawObj}
    (hknown : elemsKnown decimal elems = true) (hat : At b 0 (encodeDocument elems)) :
    validateBSON decimal b = .ok () := by
  have hbound := hat.bound (by simp [encodeDocument])
  rw [length_encodeDocument] at hbound
  obtain ⟨n, start, id, hreach⟩ := documentReached hlen elems [] 0 hknown hat 0 none
  have hholds := @validateBSON_holds decimal b hlen
  rw [validateBSON, if_neg (by omega)] at hholds ⊢
  have hfuel : validateBSONIterative decimal b (2 * b.length + 2) .start ≠ .error .outOfFuel :=
    hholds.not_error trivial
  have hmore := iterative_mono rfl hfuel (n + 1)
  rw [← hmore]
  exact hreach (2 * b.length + 2)

end

end MongolDb.Bson
