import MongolDb.Bson.ValidatorRuns

/-! The invariant of the validator's loop: the frames on its stack hold what has been parsed. -/
namespace MongolDb.Bson
open ByteOrder ByteLayout Outcome Buffer List

section Invariant
variable (decimal : Bool) (b : Bytes)

/-- The size of the frame is the one at its start. -/
def Declares (f : Frame) : Prop :=
  ∃ u : Bytes, u.length = 4 ∧ At b f.startPosition u ∧ toInt32 (ofLe u) = f.expectedSize

/-- The object of the frame has been parsed up to `p`. -/
structure Parsed (f : Frame) (elems : RawObj) (p : Nat) : Prop where
  isObj : f.isCodeWithScope = false
  size : Declares b f
  content : At b (f.startPosition + 4) (encodeElems elems)
  known : elemsKnown decimal elems = true
  position : p = f.startPosition + 4 + (encodeElems elems).length
  bound : p ≤ b.length

/-- The frames wait for a value of this type at `p`. -/
inductive Waits : List Frame → Nat → BSONType → Prop where
  | root : Waits [] 0 .object
  | element {f : Frame} {frames : List Frame} {elems : RawObj} {p : Nat} {t t' : BSONType}
      (name : CString) (below : Waits frames f.startPosition t') (ht' : t'.isDocument = true)
      (parsed : Parsed decimal b f elems p) (hat : At b p (t.byte :: name.encode)) :
      Waits (f :: frames) (p + 1 + name.encode.length) t
  | scope {f : Frame} {frames : List Frame} (code : Bytes)
      (below : Waits frames f.startPosition .codeWScope) (isScope : f.isCodeWithScope = true)
      (size : Declares b f) (hat : At b (f.startPosition + 4) (encodeText code)) :
      Waits (f :: frames) (f.startPosition + 4 + (encodeText code).length) .object

/-- What each state stands for. -/
inductive Shape : List Frame → ValidationState → Nat → Prop where
  | beginObj {frames : List Frame} {p : Nat} {t : BSONType} (waits : Waits decimal b frames p t)
      (ht : t.isDocument = true) : Shape frames .beginObj p
  | withinObj {f : Frame} {frames : List Frame} {elems : RawObj} {p : Nat} {t : BSONType}
      (waits : Waits decimal b frames f.startPosition t) (ht : t.isDocument = true)
      (parsed : Parsed decimal b f elems p) : Shape (f :: frames) .withinObj p
  /-- The end of the buffer has been passed; the next read finds out. -/
  | overrun {f : Frame} {frames : List Frame} {p : Nat} (h : b.length < p) :
      Shape (f :: frames) .withinObj p
  | endObj {f : Frame} {frames : List Frame} {elems : RawObj} {p : Nat} {t : BSONType}
      (waits : Waits decimal b frames f.startPosition t) (ht : t.isDocument = true)
      (parsed : Parsed decimal b f elems p) (hzero : b[p]? = some 0) :
      Shape (f :: frames) .endObj (p + 1)
  | beginCodeWScope {frames : List Frame} {p : Nat}
      (waits : Waits decimal b frames p .codeWScope) : Shape frames .beginCodeWScope p
  | endCodeWScope {f : Frame} {frames : List Frame} {code : Bytes} {scope : RawObj} {p : Nat}
      (waits : Waits decimal b frames f.startPosition .codeWScope) (size : Declares b f)
      (known : elemsKnown decimal scope = true)
      (hat : At b (f.startPosition + 4) (encodeText code ++ encodeDocument scope))
      (hp : p = f.startPosition + 4 + (encodeText code ++ encodeDocument scope).length) :
      Shape (f :: frames) .endCodeWScope p
  | done {elems : RawObj} {p : Nat} (known : elemsKnown decimal elems = true)
      (hat : At b 0 (encodeDocument elems)) : Shape [] .done p

def Sound (m : Machine) : Prop := Shape decimal b m.frames m.state m.position

end Invariant

section Step
variable {decimal : Bool} {b : Bytes} {m : Machine} {f : Frame} {frames : List Frame}
  {elems : RawObj} {p : Nat} {t : BSONType}

theorem ElementInfo.lt {s : ValidationState} {p' : Nat} (h : ElementInfo decimal b p s p') :
    p < b.length ∧ p < p' := by
  have hlt : ∀ c u, At b p (c :: u) → p < b.length := by
    intro c u hat
    have := hat.bound (cons_ne_nil c u)
    rw [length_cons] at this
    omega
  cases h with
  | eoo h => exact ⟨(List.getElem?_eq_some_iff.mp h).1, by omega⟩
  | value e hknown hat hbound => exact ⟨hlt _ _ hat, by rw [length_encodeElement]; omega⟩
  | truncated name hat p' hbound =>
    have := hlt _ _ hat
    exact ⟨this, by omega⟩
  | scope name hat | document t ht name hat => exact ⟨hlt _ _ hat, by omega⟩

theorem Parsed.snoc (h : Parsed decimal b f elems p) {e : CString × RawValue}
    (hknown : e.2.known decimal = true) (hat : At b p (encodeElement e))
    (hbound : p + (encodeElement e).length ≤ b.length) :
    Parsed decimal b f (elems ++ [e]) (p + (encodeElement e).length) := by
  have hencode : encodeElems (elems ++ [e]) = encodeElems elems ++ encodeElement e := by
    rw [encodeElems_append, encodeElems_cons, encodeElems_nil, append_nil]
  refine ⟨h.isObj, h.size, ?_, ?_, ?_, hbound⟩
  · rw [hencode, at_append, ← h.position]
    exact ⟨h.content, hat⟩
  · rw [elemsKnown_append, h.known]
    simp [elemsKnown, hknown]
  · rw [hencode, length_append, h.position]
    omega

/-- An object whose size is right is a document. -/
theorem Parsed.document (hlen : b.length < 2 ^ 31) (h : Parsed decimal b f elems p)
    (hzero : b[p]? = some 0) (hsize : toInt32 (p + 1 - f.startPosition) = f.expectedSize) :
    At b f.startPosition (encodeDocument elems) ∧
      p + 1 = f.startPosition + (encodeDocument elems).length := by
  have hp := h.position
  have hlt := (List.getElem?_eq_some_iff.mp hzero).1
  obtain ⟨u, hu, hat, hdeclared⟩ := h.size
  have hactual : p + 1 - f.startPosition = (encodeElems elems).length + 5 := by omega
  rw [hactual, toInt32_of_lt (by omega)] at hsize
  have hle := eq_le_of_toInt32 hu (hdeclared.trans hsize.symm)
  refine ⟨?_, by rw [length_encodeDocument]; omega⟩
  rw [encodeDocument, at_append, at_append, ← hle, length_append, hu, at_singleton,
    ← Nat.add_assoc, ← hp]
  exact ⟨⟨hat, h.content⟩, hzero⟩

/-- A field name ends within the buffer, and so does its comparison. -/
theorem strcmpIsZero_eq_ok {cs s : Bytes} (hcs : 0 ∉ cs) (hat : At b p (s ++ [0])) :
    ∃ found, strcmpIsZero b p cs = .ok found := by
  induction cs generalizing p s with
  | nil =>
    have hlt := hat.bound (by simp)
    rw [length_append, length_singleton] at hlt
    rw [strcmpIsZero, byteAt, List.getElem?_eq_getElem (by omega)]
    exact ⟨_, rfl⟩
  | cons c cs ih =>
    rw [strcmpIsZero]
    cases s with
    | nil =>
      have hzero : 0 ≠ c := fun hc => hcs (hc ▸ mem_cons_self)
      rw [byteAt, at_singleton.mp hat]
      exact ⟨false, if_neg hzero⟩
    | cons x s =>
      obtain ⟨hx, hs⟩ := at_cons.mp hat
      obtain ⟨found, hfound⟩ := ih (fun hmem => hcs (mem_cons_of_mem c hmem)) hs
      rw [byteAt, hx]
      by_cases hxc : x = c
      · exact ⟨found, (if_pos hxc).trans hfound⟩
      · exact ⟨false, if_neg hxc⟩

theorem findIdElem_eq_ok {s : ValidationState}
    (hname : s ≠ .endObj → ∃ name : CString, At b (m.position + 1) name.encode) :
    ∃ start, m.findIdElem b s = .ok start := by
  rw [Machine.findIdElem]
  split
  next h =>
    obtain ⟨name, hat⟩ := hname h.1
    have hid : 0 ∉ idName := by decide
    obtain ⟨found, hfound⟩ := strcmpIsZero_eq_ok hid hat
    rw [hfound]
    exact ⟨_, rfl⟩
  · exact ⟨_, rfl⟩

theorem noteIdElem_spec (m : Machine) :
    m.noteIdElem.frames = m.frames ∧ m.noteIdElem.position = m.position := by
  rw [Machine.noteIdElem]
  split <;> exact ⟨rfl, rfl⟩

theorem ElementInfo.name {s : ValidationState} {p' : Nat} (h : ElementInfo decimal b p s p')
    (hs : s ≠ .endObj) : ∃ name : CString, At b (p + 1) name.encode := by
  cases h with
  | eoo h => exact absurd rfl hs
  | value e hknown hat hbound => exact ⟨e.1, (at_append.mp (at_cons.mp hat).2).1⟩
  | truncated name hat | scope name hat | document t ht name hat => exact ⟨name, (at_cons.mp hat).2⟩

/-- What follows from the element that stands next in an object. -/
theorem Shape.next {s : ValidationState} {p' : Nat} (h : Shape decimal b frames .withinObj p)
    (hinfo : ElementInfo decimal b p s p') : Shape decimal b frames s p' := by
  cases h with
  | overrun hover =>
    have := hinfo.lt.1
    omega
  | withinObj waits ht parsed =>
    cases hinfo with
    | eoo h => exact .endObj waits ht parsed h
    | value e hknown hat hbound => exact .withinObj waits ht (parsed.snoc hknown hat hbound)
    | truncated name hat p' hbound => exact .overrun hbound
    | scope name hat => exact .beginCodeWScope (.element name waits ht parsed hat)
    | document t' ht' name hat => exact .beginObj (.element name waits ht parsed hat) ht'

theorem withinObj_sound (h : Shape decimal b m.frames .withinObj m.position) :
    Holds Halt.Astray (Sound decimal b) (m.withinObj decimal b) := by
  obtain ⟨hframes, hposition⟩ := noteIdElem_spec m
  rw [Machine.withinObj]
  generalize m.noteIdElem = m' at hframes hposition
  refine (validateElementInfo_holds _).bind ?_
  rintro ⟨s, p'⟩ hinfo
  obtain ⟨start, hfind⟩ := findIdElem_eq_ok (m := m') hinfo.name
  dsimp only
  rw [hfind]
  rw [hposition] at hinfo
  rw [← hframes] at h
  exact h.next hinfo

/-- With its value an element is complete. -/
theorem Waits.close (h : Waits decimal b (f :: frames) p t) (hf : f.isCodeWithScope = false)
    {v : RawValue} (hv : v.type = t) (hknown : v.known decimal = true) (hat : At b p v.encode)
    (hbound : p + v.encode.length ≤ b.length) :
    Shape decimal b (f :: frames) .withinObj (p + v.encode.length) := by
  cases h with
  | scope code below isScope size hat => rw [hf] at isScope; cases isScope
  | @element f frames elems p t t' name below ht' parsed hheader =>
    subst hv
    have hlen := length_element name v
    have hparsed := parsed.snoc (e := (name, v)) hknown (at_element.mpr ⟨hheader, hat⟩) (by omega)
    rw [hlen, ← Nat.add_assoc, ← Nat.add_assoc] at hparsed
    exact .withinObj below ht' hparsed

theorem Waits.frames_ne_nil (h : Waits decimal b frames p .codeWScope) : frames ≠ [] := by
  rintro rfl
  cases h

theorem Waits.isObj (h : Waits decimal b (f :: frames) p .codeWScope) :
    f.isCodeWithScope = false := by
  cases h with
  | element name below ht' parsed hat => exact parsed.isObj

section States
variable {idStart : Nat} {idElem : Option Nat} (hlen : b.length < 2 ^ 31)
include hlen

/-- A frame can be opened where four bytes stand. -/
theorem opened {u : Bytes} (hu : u.length = 4) (hat : At b p u) :
    p % 2 ^ 31 = p ∧ p + 4 ≤ b.length := by
  have hbound := hat.bound (by rintro rfl; cases hu)
  rw [hu] at hbound
  exact ⟨Nat.mod_eq_of_lt (by omega), hbound⟩

theorem readInt_opens (msg : String) : Holds Halt.Astray (fun r => r.2 = p + 4 ∧
    p % 2 ^ 31 = p ∧ p + 4 ≤ b.length ∧ ∀ isScope, Declares b ⟨p, isScope, r.1⟩)
      (readInt b p (.makeError msg idElem)) := by
  refine (readInt_holds not_astray).mono ?_
  rintro ⟨n, p'⟩ ⟨u, hu, hat, hr⟩
  cases hr
  obtain ⟨hmod, hbound⟩ := opened hlen hu hat
  exact ⟨rfl, hmod, hbound, fun _ => ⟨u, hu, hat, rfl⟩⟩

theorem step_beginObj (waits : Waits decimal b frames p t) (ht : t.isDocument = true) :
    Holds Halt.Astray (Sound decimal b)
      (Machine.step decimal b ⟨frames, .beginObj, p, idStart, idElem⟩) := by
  rw [Machine.step]
  refine (readInt_opens hlen _).bind ?_
  rintro ⟨n, p'⟩ ⟨rfl, hmod, hbound, hsize⟩
  have hparsed : Parsed decimal b ⟨p, false, n⟩ [] (p + 4) :=
    ⟨rfl, hsize false, by rw [encodeElems_nil]; exact at_nil, by rw [elemsKnown],
      by rw [encodeElems_nil]; rfl, hbound⟩
  apply withinObj_sound
  change Shape decimal b (⟨p % 2 ^ 31, false, n⟩ :: frames) .withinObj (p + 4)
  rw [show p % 2 ^ 31 = p from hmod]
  exact .withinObj (t := t) waits ht hparsed

theorem step_beginCodeWScope (waits : Waits decimal b frames p .codeWScope) :
    Holds Halt.Astray (Sound decimal b)
      (Machine.step decimal b ⟨frames, .beginCodeWScope, p, idStart, idElem⟩) := by
  rw [Machine.step]
  refine (readInt_opens hlen _).bind ?_
  rintro ⟨n, p'⟩ ⟨rfl, hmod, -, hsize⟩
  refine readUTF8String_holds.bind ?_
  rintro p' ⟨code, hcode, rfl, -⟩
  change Shape decimal b (⟨p % 2 ^ 31, true, n⟩ :: frames) .beginObj (p + 4 + (encodeText code).length)
  rw [show p % 2 ^ 31 = p from hmod]
  exact .beginObj (.scope (f := ⟨p, true, n⟩) code waits rfl (hsize true) hcode) rfl

theorem step_endObj (waits : Waits decimal b frames f.startPosition t) (ht : t.isDocument = true)
    (parsed : Parsed decimal b f elems p) (hzero : b[p]? = some 0) :
    Holds Halt.Astray (Sound decimal b)
      (Machine.step decimal b ⟨f :: frames, .endObj, p + 1, idStart, idElem⟩) := by
  rw [Machine.step]
  dsimp only
  split
  · exact not_astray
  next hsize =>
    obtain ⟨hat, hend⟩ := parsed.document hlen hzero (not_not.mp hsize)
    have hbound : p + 1 ≤ b.length := (List.getElem?_eq_some_iff.mp hzero).1
    cases frames with
    | nil =>
      have hroot : f.startPosition = 0 := by
        generalize f.startPosition = q at waits
        cases waits
        rfl
      rw [hroot] at hat
      exact .done parsed.known hat
    | cons g frames =>
      change Shape decimal b (g :: frames)
        (if g.isCodeWithScope then .endCodeWScope else .withinObj) (p + 1)
      cases hg : g.isCodeWithScope with
      | false =>
        have hencode := encode_document t ht elems
        have hshape := waits.close hg (v := .document t ht elems) rfl
          (by rw [RawValue.known]; exact parsed.known) (hencode ▸ hat) (by rw [hencode, ← hend]; exact hbound)
        rwa [hencode, ← hend] at hshape
      | true =>
        generalize f.startPosition = q at waits hat hend
        cases waits with
        | element name below ht' parsed hat => rw [parsed.isObj] at hg; cases hg
        | scope code below isScope size hcode =>
          refine .endCodeWScope below size parsed.known (at_append.mpr ⟨hcode, hat⟩) ?_
          rw [length_append, ← Nat.add_assoc]
          exact hend

theorem step_endCodeWScope (waits : Waits decimal b frames f.startPosition .codeWScope)
    (size : Declares b f) (known : elemsKnown decimal elems = true) {code : Bytes}
    (hat : At b (f.startPosition + 4) (encodeText code ++ encodeDocument elems))
    (hp : p = f.startPosition + 4 + (encodeText code ++ encodeDocument elems).length) :
    Holds Halt.Astray (Sound decimal b)
      (Machine.step decimal b ⟨f :: frames, .endCodeWScope, p, idStart, idElem⟩) := by
  rw [Machine.step]
  dsimp only
  split
  · exact not_astray
  next hsize =>
    cases frames with
    | nil => exact absurd rfl waits.frames_ne_nil
    | cons g frames =>
      obtain ⟨u, hu, hbytes, hdeclared⟩ := size
      have hbound := hat.bound (by simp [encodeText])
      have hactual : p - f.startPosition =
          4 + (encodeText code).length + (encodeDocument elems).length := by
        rw [hp, length_append]
        omega
      have hsize := not_not.mp hsize
      rw [hactual, toInt32_of_lt (by rw [length_append] at hbound; omega)] at hsize
      have hle := eq_le_of_toInt32 hu (hdeclared.trans hsize.symm)
      have hencode := encode_codeWScope code elems
      rw [← hle, append_assoc] at hencode
      have hlength : f.startPosition + (RawValue.codeWScope code elems).encode.length = p := by
        rw [hencode, length_append, hu, hp, Nat.add_assoc]
      have hshape := waits.close waits.isObj (v := .codeWScope code elems) rfl
        (by rw [RawValue.known]; exact known)
        (by rw [hencode, at_append, hu]; exact ⟨hbytes, hat⟩)
        (by rw [hlength, hp]; exact hbound)
      rwa [hlength] at hshape

end States

/-- One round of the loop keeps the invariant, or reports an error. -/
theorem step_sound (hlen : b.length < 2 ^ 31) (h : Sound decimal b m) (hdone : m.state ≠ .done) :
    Holds Halt.Astray (Sound decimal b) (m.step decimal b) := by
  obtain ⟨frames, state, position, idStart, idElem⟩ := m
  cases id h with
  | withinObj | overrun => exact withinObj_sound h
  | done known hat => exact absurd rfl hdone
  | beginObj waits ht => exact step_beginObj hlen waits ht
  | endObj waits ht parsed hzero => exact step_endObj hlen waits ht parsed hzero
  | beginCodeWScope waits => exact step_beginCodeWScope hlen waits
  | endCodeWScope waits size known hat hp => exact step_endCodeWScope hlen waits size known hat hp

end Step

end MongolDb.Bson
