import DevOs.Lib.Bytes

/-!
# The reader of the DSDT

`AcpiReadDsdt` walks through the machine language of the DSDT. It skips Alias, Name, Scope and
Method objects, and passes over every other byte alone; behind the name of a Scope it calls
`AmlReadPackage`, which reads operation regions and fields. Offsets count from the first byte of the
machine language, and memory goes on behind its last one. What the functions read is kept beside
what they compute.
-/

namespace DevOs.Aml

open Bytes

def amlAliasOp : Byte := 0x06
def amlNameOp : Byte := 0x08
def amlScopeOp : Byte := 0x10
def amlMethodOp : Byte := 0x14
def amlExtendedOp : Byte := 0x5B
def amlOperationRegionExop : Byte := 0x80
def amlFieldExop : Byte := 0x81

def amlDualnamePrefix : Byte := 0x2E
def amlRootPrefix : Byte := 0x5C
def amlMultinamePrefix : Byte := 0x2F

def amlBytePrefix : Byte := 0x0A
def amlWordPrefix : Byte := 0x0B
def amlDwordPrefix : Byte := 0x0C
def amlZeroOp : Byte := 0x00
def amlOneOp : Byte := 0x01
def amlOnesOp : Byte := 0xFF

/-- `PKG_LEAD_BYTE` -/
structure PkgLeadByte where
  packageLength : BitVec 4
  pkgLenBelow63 : BitVec 2
  followingByteDataCount : BitVec 2
deriving DecidableEq, Repr

def pkgLeadByte (c : Byte) : PkgLeadByte :=
  ⟨c.extractLsb' 0 4, c.extractLsb' 4 2, c.extractLsb' 6 2⟩

def followingBytes (b : Buffer) (package : ℕ) : ℕ :=
  (pkgLeadByte (b package)).followingByteDataCount.toNat

/-- `((UINT32)c & 0xff) << bitOff` of a signed character. -/
def shiftedByte (c : Byte) (bitOff : ℕ) : BitVec 32 := (c.signExtend 32 &&& 0xFF) <<< bitOff

/-- `PkgLength` before the following bytes are looked at. -/
def leadLength (b : Buffer) (package : ℕ) : BitVec 32 :=
  (pkgLeadByte (b package)).packageLength.setWidth 32 &&& 0xF

def shortLength (b : Buffer) (package : ℕ) : BitVec 32 :=
  leadLength b package ||| (pkgLeadByte (b package)).pkgLenBelow63.setWidth 32 <<< 4

/-- The loop over the following bytes at `aml`, with `n` of them left. -/
def orFollowing (b : Buffer) (aml : ℕ) : ℕ → ℕ → ℕ → BitVec 32 → BitVec 32
  | 0, _, _, pkgLength => pkgLength
  | n + 1, c, bitOff, pkgLength =>
    orFollowing b aml n (c + 1) (bitOff + 8) (pkgLength ||| shiftedByte (b (aml + c)) bitOff)

/-- `AmlReadPkgLength`: the length and `IncBytes`. -/
def amlReadPkgLength (b : Buffer) (aml : ℕ) : BitVec 32 × ℕ :=
  (if followingBytes b aml = 0 then shortLength b aml
    else orFollowing b (aml + 1) (followingBytes b aml) 0 4 (leadLength b aml),
    1 + followingBytes b aml)

/-- The length in the Scope branch of `AcpiReadDsdt`, where the cursor has passed the lead byte. -/
def scopePkgLength (b : Buffer) (aml : ℕ) : BitVec 32 :=
  if followingBytes b (aml - 1) = 0 then shortLength b (aml - 1)
  else orFollowing b aml (followingBytes b (aml - 1)) 0 4 (leadLength b (aml - 1))

def methodPkgLength (b : Buffer) (aml : ℕ) : BitVec 32 :=
  let pkgLength := leadLength b (aml - 1)
  if followingBytes b (aml - 1) = 0 then shortLength b (aml - 1)
  else if followingBytes b (aml - 1) = 1 then pkgLength ||| shiftedByte (b aml) 4
  else if followingBytes b (aml - 1) = 2 then
    pkgLength ||| (shiftedByte (b aml) 4 ||| shiftedByte (b (aml + 1)) 12)
  else if followingBytes b (aml - 1) = 3 then
    pkgLength ||| (shiftedByte (b aml) 4 ||| shiftedByte (b (aml + 1)) 12 ||| shiftedByte
      (b (aml + 2)) 20)
  else pkgLength

/-- What a decoder of the length reads: the lead byte and the following ones. -/
def pkgLengthReads (b : Buffer) (package : ℕ) : List ℕ :=
  (List.range (1 + followingBytes b package)).map (package + ·)

/-- `AmlCopyName` under way: its cursor, the characters written, its counters, and what it has
read. -/
structure NameCopy where
  source : ℕ
  destination : List Byte
  len : ℕ
  nameStringBytes : ℕ
  reads : List ℕ
deriving DecidableEq, Repr

/-- Passes `n` bytes. -/
def NameCopy.skip (s : NameCopy) (n : ℕ) : NameCopy :=
  { s with source := s.source + n, nameStringBytes := s.nameStringBytes + n }

def NameCopy.read (s : NameCopy) (n : ℕ) : NameCopy :=
  { s with reads := s.reads ++ (List.range n).map (s.source + ·) }

def NameCopy.put (s : NameCopy) (c : Byte) : NameCopy :=
  { s with destination := s.destination ++ [c], len := s.len + 1 }

/-- The loop over the characters of a segment, in the round `i`, with `more` rounds after it. -/
def copyCharacters (b : Buffer) : ℕ → ℕ → NameCopy → NameCopy
  | more, i, s =>
    let c := b s.source
    let s := s.read 1
    if c = 0 then { s with nameStringBytes := s.nameStringBytes + 1 }
    else if 0 < i ∧ c = 0x5F then s.skip (4 - i)
    else match more with
      | 0 => (s.put c).skip 1
      | more + 1 => copyCharacters b more (i + 1) ((s.put c).skip 1)

/-- The loop over the segments from `x` on, with `n` of them left. In the first one the loop over
the characters starts with the number of prefix bytes. -/
def copySegments (b : Buffer) : ℕ → ℕ → NameCopy → NameCopy
  | 0, _, s => s
  | n + 1, x, s =>
    let s := if x ≠ 0 then s.put 0x2E else s
    let i := if x = 0 then s.nameStringBytes else 0
    copySegments b n (x + 1) (copyCharacters b (3 - i) i s)

def copyRoot (b : Buffer) (s : NameCopy) : NameCopy :=
  if b s.source = amlRootPrefix ∨ b s.source = 0x22 then
    { (s.read 1).skip 1 with destination := [amlRootPrefix] }
  else s.read 1

def namePrefix (b : Buffer) (s : NameCopy) : ℕ × NameCopy :=
  let (numNames, s) :=
    if b s.source = amlMultinamePrefix then ((b (s.source + 1)).toNat, (s.read 2).skip 2)
      else (1, s.read 1)
  if b s.source = amlDualnamePrefix then (2, (s.read 1).skip 1) else (numNames, s.read 1)

/-- `AmlCopyName`: what it returns is `len`, and a zero follows what it has written. -/
def amlCopyName (b : Buffer) (source : ℕ) : NameCopy :=
  let (numNames, s) := namePrefix b (copyRoot b ⟨source, [], 0, 0, []⟩)
  copySegments b numNames 0 s

def NameCopy.written (s : NameCopy) : ℕ := s.destination.length + 1

/-- The bytes that an expression takes, its prefix included, for the prefixes that are known. -/
def expressionLength (c : Byte) : Option ℕ :=
  if c = amlBytePrefix then some 2
  else if c = amlWordPrefix then some 3
  else if c = amlDwordPrefix then some 5
  else if c = amlZeroOp ∨ c = amlOneOp ∨ c = amlOnesOp then some 1
  else none

/-- `AmlReadExpression`: `*LenExpression` stays as it was for an unknown prefix. The value is only
printed. -/
def amlReadExpression (b : Buffer) (aml lenExpression : ℕ) : ℕ :=
  (expressionLength (b aml)).getD lenExpression

def expressionReads (b : Buffer) (aml : ℕ) : List ℕ :=
  (List.range ((expressionLength (b aml)).getD 1)).map (aml + ·)

/-- The characters that fit into `DefName` of `AcpiReadDsdt`. -/
def defNameSize : ℕ := 0x100

/-- Those that fit into `NameString` of `AmlReadPackage` and `NameStr` of `AmlParseFieldElement`. -/
def nameStringSize : ℕ := 0x20

/-- What a piece of the code reads, and whether it comes to its end: it does not when it waits for
ever or has written behind an array on its stack. -/
structure Trace where
  reads : List ℕ
  ends : Bool

/-- `AmlParseFieldElement`: two of the field types end in `while(1)`. -/
def amlParseFieldElement (b : Buffer) (aml : ℕ) : Trace :=
  let fieldType := b aml
  if fieldType = 0 then ⟨aml :: pkgLengthReads b (aml + 1), true⟩
  else if fieldType = 1 then ⟨[aml, aml + 1, aml + 2], true⟩
  else if fieldType = 3 then ⟨[aml, aml + 1, aml + 2], false⟩
  else if fieldType = 2 then ⟨aml :: (amlCopyName b (aml + 1)).reads, false⟩
  else
    let name := amlCopyName b aml
    ⟨aml :: (name.reads ++ pkgLengthReads b (aml + name.nameStringBytes)),
      name.written ≤ nameStringSize⟩

/-- Where the code stands: at the head of the loop of `AcpiReadDsdt` with the cursor `i`, or at the
head of the loop of `AmlReadPackage`, after which the other loop goes on at `next`. -/
inductive Place where
  | table (i : ℕ)
  | package (aml i : ℕ) (packageLength : BitVec 32) (next : ℕ)
deriving DecidableEq, Repr

/-- What follows a round of a loop. -/
inductive Outcome where
  | goto (p : Place)
  | finished
  | stuck
deriving DecidableEq, Repr

structure Round where
  reads : List ℕ
  outcome : Outcome
deriving DecidableEq, Repr

/-- The round ends in `p` when its pieces come to their ends. -/
def Round.of (reads : List ℕ) (ends : Bool) (p : Place) : Round :=
  ⟨reads, if ends then .goto p else .stuck⟩

/-- An operation region, whose name starts at `aml`. -/
def regionRound (b : Buffer) (aml i : ℕ) (packageLength : BitVec 32) (next : ℕ) : Round :=
  let name := amlCopyName b aml
  let first := aml + name.nameStringBytes + 1
  let firstCount := amlReadExpression b first 0
  let secondCount := amlReadExpression b (first + firstCount) firstCount
  let inc := name.nameStringBytes + 1 + firstCount + secondCount
  .of (name.reads ++ [first - 1] ++
    expressionReads b first ++ expressionReads b (first + firstCount))
    (name.written ≤ nameStringSize) (.package (aml + inc) (i + inc + 1) packageLength next)

/-- A field, whose package length starts at `aml`. Its last step is computed with 64 bits. -/
def fieldRound (b : Buffer) (aml i : ℕ) (packageLength : BitVec 32) (next : ℕ) : Round :=
  let (pkgLength, pkgBytes) := amlReadPkgLength b aml
  let name := amlCopyName b (aml + pkgBytes)
  let inc := pkgBytes + name.nameStringBytes + 1
  let rest : BitVec 64 := pkgLength.setWidth 64 - BitVec.ofNat 64 name.nameStringBytes - 2
  let element := amlParseFieldElement b (aml + inc)
  .of (pkgLengthReads b aml ++ name.reads ++ [aml + inc - 1] ++ element.reads)
    (name.written ≤ nameStringSize && element.ends)
    (.package (BitVec.ofNat 64 (aml + inc) + rest).toNat
    ((BitVec.ofNat 64 (i + inc) + rest).toNat + 1)
      packageLength next)

/-- A round of `AmlReadPackage`. -/
def packageRound (b : Buffer) (aml i : ℕ) (packageLength : BitVec 32) (next : ℕ) : Round :=
  if i < packageLength.toNat then
    if b aml = amlExtendedOp then
      let round :=
        if b (aml + 1) = amlOperationRegionExop then regionRound b (aml + 2)
          (i + 2) packageLength next
        else if b (aml + 1) = amlFieldExop then fieldRound b (aml + 2) (i + 2) packageLength next
        else .of [] true (.package (aml + 2) (i + 3) packageLength next)
      { round with reads := [aml, aml + 1] ++ round.reads }
    else if b aml = amlMethodOp then .of [aml] true (.table next)
    else .of [aml, aml - 1] true (.table next)
  else .of [] true (.table next)

/-- The cursor behind a Scope. What is left of its length is computed with 32 bits. -/
def scopeNext (b : Buffer) (i : ℕ) : ℕ :=
  let following := followingBytes b (i + 1)
  i + 2 + following + (scopePkgLength b (i + 2) - BitVec.ofNat 32 following - 1).toNat

def methodNext (b : Buffer) (i : ℕ) : ℕ :=
  let following := followingBytes b (i + 1)
  i + 2 + following + (methodPkgLength b (i + 2) - BitVec.ofNat 32 following - 2).toNat

/-- A round of `AcpiReadDsdt`, for a table of `amlLength` bytes. -/
def tableRound (b : Buffer) (amlLength i : ℕ) : Round :=
  if i < amlLength then
    if b i = amlAliasOp then .of ((List.range 9).map (i + ·)) true (.table (i + 9))
    else if b i = amlNameOp then
      let name := amlCopyName b (i + 1)
      .of (i :: name.reads) (name.written ≤ defNameSize) (.table (i + 1 + name.len))
    else if b i = amlScopeOp then
      let aml := i + 2 + followingBytes b (i + 1)
      let name := amlCopyName b aml
      .of (i :: (pkgLengthReads b (i + 1) ++ name.reads ++ (List.range 13).map (aml + ·)))
        (name.written ≤ defNameSize)
        (.package (aml + name.nameStringBytes) 0 (scopePkgLength b (i + 2)) (scopeNext b i))
    else if b i = amlMethodOp then
      let aml := i + 2 + followingBytes b (i + 1)
      .of (i :: (pkgLengthReads b (i + 1) ++ (List.range 11).map (aml + ·))) true
        (.table (methodNext b i))
    else .of [i] true (.table (i + 1))
  else ⟨[], .finished⟩

def round (b : Buffer) (amlLength : ℕ) : Place → Round
  | .table i => tableRound b amlLength i
  | .package aml i packageLength next => packageRound b aml i packageLength next

def Outcome.next : Outcome → Option Place
  | .goto p => some p
  | .finished => none
  | .stuck => none

/-- Where `AcpiReadDsdt` stands after `k` rounds. -/
def placeAfter (b : Buffer) (amlLength : ℕ) : ℕ → Option Place
  | 0 => some (.table 0)
  | k + 1 => (placeAfter b amlLength k).bind fun p => (round b amlLength p).outcome.next

end DevOs.Aml
