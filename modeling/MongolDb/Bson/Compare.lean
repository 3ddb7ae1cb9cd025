import MongolDb.Bson.Value

/-! The order of BSON values: `compareElementValues` and the two `woCompare`s, as signs. -/
namespace MongolDb.Bson
open ByteOrder

/-! Numbers of different types (base/compare_numbers.h). -/

def compareInts (lhs rhs : Int32) : Ordering :=
  if lhs = rhs then .eq else if lhs < rhs then .lt else .gt

def compareLongs (lhs rhs : Int) : Ordering :=
  if lhs = rhs then .eq else if lhs < rhs then .lt else .gt

def compareDoubles (lhs rhs : Binary64) : Ordering :=
  if lhs.eq rhs then .eq
  else if lhs.lt rhs then .lt
  else if rhs.lt lhs then .gt
  -- one of the two is a NaN
  else if lhs.isNaN then if rhs.isNaN then .eq else .lt
  else .gt

def kEndOfPreciseDoubles : Int := 2 ^ 53

/-- `-static_cast<double>(LLONG_MIN)`, that is `2 ^ 63`. -/
def kBoundOfLongRange : Binary64 := Binary64.ofNat (2 ^ 63)

def compareLongToDouble (lhs : Int) (rhs : Binary64) : Ordering :=
  if rhs.isNaN then .gt
  else if lhs ≤ kEndOfPreciseDoubles ∧ -kEndOfPreciseDoubles ≤ lhs then
    compareDoubles (Binary64.ofInt lhs) rhs
  else if kBoundOfLongRange.lt rhs || kBoundOfLongRange.eq rhs then .lt
  else if rhs.lt kBoundOfLongRange.neg then .gt
  else compareLongs lhs rhs.truncInt

def compareDoubleToLong (lhs : Binary64) (rhs : Int) : Ordering :=
  (compareLongToDouble rhs lhs).swap

/-- Two strings with their terminating NULs: the common bytes first, then the sizes. -/
def compareStrings (l r : Bytes) : Ordering := lex (l ++ [0]) (r ++ [0])

/-- `strcmp` on texts that hold no NUL byte. -/
def strcmp (l r : Bytes) : Ordering := lex l r

/-- The bytes of a DBRef value: its text's size, the text, a NUL, the ObjectId. -/
def dbRefBytes (ns : Bytes) (o : OID) : Bytes :=
  (be 4 (ns.length + 1)).reverse ++ ns ++ [0] ++ o.bytes

/-- Signed comparison of two timestamps, as `Date_t` compares. -/
def compareAsDates (l r : UInt64) : Ordering := compare l.toInt64.toInt r.toInt64.toInt

/-- Comparison of two timestamps as unsigned 64-bit integers. -/
def compareAsUnsigned (l r : UInt64) : Ordering := compare l.toNat r.toNat

mutual
/-- The comparison of two values of one canonical type. How timestamps are compared is a
parameter: the source reads both as `Date_t`, under a comment that asks for unsigned order. -/
def compareElementValues (timestamps : UInt64 → UInt64 → Ordering) : Value → Value → Ordering
  | .bool l, .bool r => compare l.toNat r.toNat
  | .timestamp l, .timestamp r => timestamps l r
  | .date l, .date r => compareLongs l.toInt r.toInt
  | .numberInt l, .numberInt r => compareInts l r
  | .numberInt l, .numberLong r => compareLongs l.toInt r.toInt
  | .numberInt l, .numberDouble r => compareDoubles (Binary64.ofInt l.toInt) r
  | .numberLong l, .numberLong r | .numberLong l, .numberInt r => compareLongs l.toInt r.toInt
  | .numberLong l, .numberDouble r => compareLongToDouble l.toInt r
  | .numberDouble l, .numberDouble r => compareDoubles l r
  | .numberDouble l, .numberInt r => compareDoubles l (Binary64.ofInt r.toInt)
  | .numberDouble l, .numberLong r => compareDoubleToLong l r.toInt
  | .oid l, .oid r => lex l.bytes r.bytes
  | .code l, .code r | .string l, .string r | .string l, .symbol r | .symbol l, .string r
  | .symbol l, .symbol r => compareStrings l r
  | .object l, .object r | .array l, .array r => woCompare timestamps l r
  | .dbRef ln lo, .dbRef rn ro =>
    (compare (4 + ln.length + 1 + 12) (4 + rn.length + 1 + 12)).then
      (lex (dbRefBytes ln lo) (dbRefBytes rn ro))
  | .binData ls ld, .binData rs rd =>
    (compare ld.length rd.length).then (lex (ls :: ld) (rs :: rd))
  | .regEx lp lf, .regEx rp rf => (strcmp lp rp).then (strcmp lf rf)
  | .codeWScope lc ls, .codeWScope rc rs => (lex lc rc).then (woCompare timestamps ls rs)
  -- EOO, Undefined, jstNULL, MaxKey and MinKey; the caller has ruled out unequal types
  | l, r => compare l.canonicalType r.canonicalType
/-- Embedded documents: canonical type, field name and value of each element in turn. -/
def woCompare (timestamps : UInt64 → UInt64 → Ordering) :
    List (Bytes × Value) → List (Bytes × Value) → Ordering
  | [], [] => .eq
  | [], _ :: _ => .lt
  | _ :: _, [] => .gt
  | (ln, l) :: ls, (rn, r) :: rs =>
    (if l.canonicalType ≠ r.canonicalType ∧ ¬ (l.isNumber ∧ r.isNumber) then
      compare l.canonicalType r.canonicalType
    else (strcmp ln rn).then (compareElementValues timestamps l r)).then
      (woCompare timestamps ls rs)
end

/-- `BSONElement::woCompare` without field names. -/
def woCompareElement (timestamps : UInt64 → UInt64 → Ordering) (l r : Value) : Ordering :=
  if l.canonicalType ≠ r.canonicalType ∧ ¬ (l.isNumber ∧ r.isNumber) then
    compare l.canonicalType r.canonicalType
  else compareElementValues timestamps l r

/-! Ascending and descending fields of a key pattern (bson/ordering.h). -/

/-- The class `Ordering`: bit `i` is set when field `i` is descending. -/
structure KeyOrdering where
  bits : BitVec 32
  deriving DecidableEq

/-- True when `get(i) == -1`. The count of a 32-bit shift is taken modulo 32 by the processor;
the language leaves counts of 32 and more undefined. -/
def KeyOrdering.inverts (o : KeyOrdering) (i : Nat) : Bool := o.bits.getLsbD (i % 32)

/-- `descending(mask)` for the mask `1 << i`, which has become zero from `i = 32` on. -/
def KeyOrdering.descending (o : KeyOrdering) (i : Nat) : Bool := o.bits.getLsbD i

/-- `e.number() < 0` for a field of a key pattern; a field that is no number reads as zero. -/
def Value.numberIsNegative : Value → Bool
  | .numberInt n | .numberLong n => decide (n < 0)
  | .numberDouble d => d.lt (Binary64.ofNat 0)
  | _ => false

/-- The loop of `Ordering::make`; a thirty-third field is refused. -/
def KeyOrdering.makeFrom (n : Nat) (b : BitVec 32) : Obj → Option KeyOrdering
  | [] => some ⟨b⟩
  | (_, e) :: rest =>
    if n ≤ 31 then
      KeyOrdering.makeFrom (n + 1) (if e.numberIsNegative then b ||| (1#32 <<< n) else b) rest
    else none

def KeyOrdering.make (pattern : Obj) : Option KeyOrdering := KeyOrdering.makeFrom 0 0#32 pattern

/-- `BSONObj::woCompare` with an `Ordering` and without field names, from field `i` on. -/
def woCompareOrdered (timestamps : UInt64 → UInt64 → Ordering) (o : KeyOrdering) :
    Nat → Obj → Obj → Ordering
  | _, [], [] => .eq
  | _, [], _ :: _ => .lt
  | _, _ :: _, [] => .gt
  | i, (_, l) :: ls, (_, r) :: rs =>
    (if o.descending i then (woCompareElement timestamps l r).swap
      else woCompareElement timestamps l r).then (woCompareOrdered timestamps o (i + 1) ls rs)

end MongolDb.Bson
