import Mathlib
import NetBsd.Lib.Fault

/-!
# Uncompressing

`decompress` of `compress.c`, which rebuilds the string table from the codes of a file, and
`getcode`, which takes the codes out of the file's bytes. The string of a code is found by going
down the chain of its prefixes, and is turned round on a stack that lies behind the suffix table.

## Main definitions

* `Compress.Reader`, `Compress.getcode`: the codes of a file
* `Compress.Tables`, `Compress.follow`: the string table, and the string of a code
* `Compress.decompress`: the whole routine
* `Compress.Known p r`: every code of the file is one that the table holds when it is read, or
  the one entered next

## Main results

* `Compress.getcode_left`, `Compress.nextCode_left`: with every code less of the file is left
-/

namespace Compress

abbrev Byte := BitVec 8

def BITS : ℕ := 16

def HSIZE : ℕ := 69001

/-- Bytes of a `count_int`. -/
def countSize : ℕ := 4

def INIT_BITS : ℕ := 9

/-- The first free entry. -/
def FIRST : ℕ := 257

/-- The code that clears the table. -/
def CLEAR : ℕ := 256

def BUFSIZ : ℕ := 1024

def rmask : List ℕ := [0x00, 0x01, 0x03, 0x07, 0x0f, 0x1f, 0x3f, 0x7f, 0xff]

def MAXCODE (n_bits : ℕ) : ℕ := 2 ^ n_bits - 1

/-- The bytes of `htab` behind the suffix table, which are `de_stack`. -/
def stackRoom : ℕ := HSIZE * countSize - 2 ^ BITS

/-- What the header of a file, or the options, say of its codes. -/
structure Params where
  maxbits : ℕ
  block_compress : Bool

def Params.maxmaxcode (p : Params) : ℕ := 2 ^ p.maxbits

/-! ## Codes from bytes -/

/-- The variables that `getcode` works on, and what is left of the standard input. -/
structure Reader where
  stdin : List Byte
  n_bits : ℕ
  maxcode : ℕ
  free_ent : ℕ
  clear_flg : Bool
  offset : ℕ
  size : ℤ
  buf : ℕ → Byte

namespace Reader

variable (p : Params) (r : Reader)

/-- Codes get wider when the next entry is too big for their width. -/
def widen : Reader :=
  if r.maxcode < r.free_ent then
    { r with
      n_bits := r.n_bits + 1
      maxcode := if r.n_bits + 1 = p.maxbits then p.maxmaxcode else MAXCODE (r.n_bits + 1) }
  else r

/-- After a `CLEAR` they start over. -/
def restart : Reader :=
  if r.clear_flg then
    { r with maxcode := MAXCODE INIT_BITS, n_bits := INIT_BITS, clear_flg := false }
  else r

/-- `fread(buf, 1, n_bits, stdin)` -/
def fread : Reader :=
  { r with
    stdin := r.stdin.drop r.n_bits
    size := (r.stdin.take r.n_bits).length
    buf := fun i => (r.stdin.take r.n_bits).getD i (r.buf i) }

/-- The code of `n_bits` bits at `offset`, low bits first. -/
def codeAt : ℕ :=
  let bp := r.offset / 8
  let r_off := r.offset % 8
  let code := (r.buf bp).toNat >>> r_off
  let bits := r.n_bits - (8 - r_off)
  let r_off := 8 - r_off
  if 8 ≤ bits then
    code ||| (r.buf (bp + 1)).toNat <<< r_off |||
      ((r.buf (bp + 2)).toNat &&& rmask.getD (bits - 8) 0) <<< (r_off + 8)
  else
    code ||| ((r.buf (bp + 1)).toNat &&& rmask.getD bits 0) <<< r_off

/-- The code at `offset`, which then moves on. -/
def take : Option ℕ × Reader :=
  (some r.codeAt, { r with offset := r.offset + r.n_bits })

/-- A buffer full of bytes: `size` becomes the bits in which a code may start. -/
def refill : Option ℕ × Reader :=
  let r := r.fread
  if r.size ≤ 0 then (none, r)
  else Reader.take { r with offset := 0, size := r.size * 8 - (r.n_bits - 1) }

end Reader

/-- `getcode`; no code is the end of the file. -/
def getcode (p : Params) (r : Reader) : Option ℕ × Reader :=
  if r.clear_flg = true ∨ r.size ≤ r.offset ∨ r.maxcode < r.free_ent then
    (r.widen p).restart.refill
  else r.take

/-- The code that a turn of `decompress` is about, and whether a `CLEAR` came before it. -/
def nextCode (p : Params) (r : Reader) : Option (Bool × ℕ) × Reader :=
  match getcode p r with
  | (none, r) => (none, r)
  | (some code, r) =>
    if code = CLEAR ∧ p.block_compress = true then
      -- an end of file here is an untimely death
      match getcode p { r with clear_flg := true, free_ent := FIRST - 1 } with
      | (none, r) => (none, r)
      | (some code, r) => (some (true, code), r)
    else (some (false, code), r)

/-! ## The string table -/

structure Tables where
  tab_prefix : ℕ → BitVec 16
  tab_suffix : ℕ → Byte

namespace Tables

variable (tab : Tables) (code : ℕ)

/-- `tab_prefixof(code)`; beyond `2^BITS` entries there is no table. -/
def prefixOf : Except Fault ℕ :=
  if code < 2 ^ BITS then .ok (tab.tab_prefix code).toNat else .error .deref

/-- `tab_suffixof(code)` -/
def suffixOf : Except Fault Byte :=
  if code < 2 ^ BITS then .ok (tab.tab_suffix code) else .error .deref

/-- The first 256 entries, when a file starts. -/
def start : Tables where
  tab_prefix e := if e < 256 then 0 else tab.tab_prefix e
  tab_suffix e := if e < 256 then BitVec.ofNat 8 e else tab.tab_suffix e

/-- What a `CLEAR` does to the table. -/
def clear : Tables :=
  { tab with tab_prefix := fun e => if e < 256 then 0 else tab.tab_prefix e }

/-- The entry `code` is made. -/
def enter (oldcode finchar : ℕ) : Except Fault Tables :=
  if code < 2 ^ BITS then
    .ok { tab_prefix := fun e => if e = code then BitVec.ofNat 16 oldcode else tab.tab_prefix e
          tab_suffix := fun e => if e = code then BitVec.ofNat 8 finchar else tab.tab_suffix e }
  else .error .deref

end Tables

/-- `*stackp++ = c`, while there is room for it. -/
def push (c : Byte) (stack : List Byte) : Except Fault (List Byte) :=
  if stack.length < stackRoom then .ok (c :: stack) else .error .deref

/-- The last character of a chain, which is the first of the string. -/
def lastChar (tab : Tables) (code : ℕ) (stack : List Byte) : Except Fault (Byte × List Byte) := do
  let finchar ← tab.suffixOf code
  let stack ← push finchar stack
  return (finchar, stack)

/-- The characters of a code, in reverse order: the chain of its prefixes is followed for at
most `steps` steps. -/
def follow (tab : Tables) : ℕ → ℕ → List Byte → Except Fault (Byte × List Byte)
  | 0, code, stack => if 256 ≤ code then .error .loop else lastChar tab code stack
  | steps + 1, code, stack =>
    if 256 ≤ code then do
      let c ← tab.suffixOf code
      let stack ← push c stack
      let code ← tab.prefixOf code
      follow tab steps code stack
    else lastChar tab code stack

/-! ## The output -/

/-- `buff`, and what has been written of the output before. -/
structure Sink where
  written : List Byte
  buff : List Byte

/-- `buff[n++] = c`, and the buffer is written when it is full. -/
def Sink.put (out : Sink) (c : Byte) : Sink :=
  let buff := out.buff ++ [c]
  if buff.length = BUFSIZ then ⟨out.written ++ buff, []⟩ else ⟨out.written, buff⟩

/-- The flush at the end. -/
def Sink.flush (out : Sink) : List Byte := out.written ++ out.buff

/-! ## The routine -/

/-- The variables of `decompress`. -/
structure Decomp where
  reader : Reader
  tab : Tables
  finchar : ℕ
  oldcode : ℕ
  out : Sink

/-- The string of the code just read. A code that is not entered yet stands for the last string
and its own first character. -/
def string (steps : ℕ) (d : Decomp) (tab : Tables) (free_ent code : ℕ) :
    Except Fault (Byte × List Byte) :=
  if free_ent ≤ code then do
    let stack ← push (BitVec.ofNat 8 d.finchar) []
    follow tab steps d.oldcode stack
  else follow tab steps code []

/-- The next entry takes the last code, if there is room for one. -/
def newEntry (p : Params) (tab : Tables) (free_ent oldcode : ℕ) (finchar : Byte) :
    Except Fault (Tables × ℕ) :=
  if free_ent < p.maxmaxcode then do
    let tab ← tab.enter free_ent oldcode finchar.toNat
    return (tab, free_ent + 1)
  else return (tab, free_ent)

/-- One turn of the loop of `decompress`, with the code that it has read. -/
def turn (p : Params) (steps : ℕ) (d : Decomp) (cleared : Bool) (incode : ℕ) (r : Reader) :
    Except Fault Decomp := do
  let tab := if cleared then d.tab.clear else d.tab
  let (finchar, stack) ← string steps d tab r.free_ent incode
  let out := stack.foldl Sink.put d.out
  let (tab, free_ent) ← newEntry p tab r.free_ent d.oldcode finchar
  return { reader := { r with free_ent := free_ent }, tab := tab, finchar := finchar.toNat,
           oldcode := incode, out := out }

/-- The loop of `decompress`. -/
def loop (p : Params) (steps : ℕ) : ℕ → Decomp → Except Fault Decomp
  | 0, _ => .error .loop
  | turns + 1, d =>
    match nextCode p d.reader with
    | (none, r) => .ok { d with reader := r }
    | (some (cleared, code), r) => turn p steps d cleared code r >>= loop p steps turns

/-- The reader when a file starts. -/
def Reader.start (p : Params) (r : Reader) : Reader :=
  { r with
    n_bits := INIT_BITS, maxcode := MAXCODE INIT_BITS
    free_ent := if p.block_compress then FIRST else 256 }

/-- `decompress`, for at most `turns` codes, of which each takes at most `steps` steps down its
chain. The variables and tables are what the file before has left in them. -/
def decompress (p : Params) (steps turns : ℕ) (r : Reader) (tab : Tables) :
    Except Fault (List Byte) :=
  match getcode p (r.start p) with
  | (none, _) => .ok []
  | (some code, r) => do
    let d ← loop p steps turns
      { reader := r, tab := tab.start, finchar := code, oldcode := code
        out := Sink.put ⟨[], []⟩ (BitVec.ofNat 8 code) }
    return d.out.flush

/-- The variables before the first file. -/
def Reader.fresh (stdin : List Byte) : Reader where
  stdin := stdin
  n_bits := 0
  maxcode := 0
  free_ent := 0
  clear_flg := false
  offset := 0
  size := 0
  buf _ := 0

def Tables.fresh : Tables where
  tab_prefix _ := 0
  tab_suffix _ := 0

/-! ## Known codes -/

/-- A code that `decompress` has read, with the next free entry at that time. -/
structure Read where
  cleared : Bool
  code : ℕ
  free_ent : ℕ

/-- After a turn there may be one more entry. -/
def Reader.grow (p : Params) (r : Reader) : Reader :=
  if r.free_ent < p.maxmaxcode then { r with free_ent := r.free_ent + 1 } else r

/-- The codes of a file after the first one: no table is needed to read them. -/
def codes (p : Params) : ℕ → Reader → List Read
  | 0, _ => []
  | turns + 1, r =>
    match nextCode p r with
    | (none, _) => []
    | (some (cleared, code), r) => ⟨cleared, code, r.free_ent⟩ :: codes p turns (r.grow p)

/-- The code is in the table, or is the one that this turn enters; after a `CLEAR` the table
holds the single characters only. -/
def Read.Known (p : Params) (c : Read) : Prop :=
  if c.cleared then c.code < 256
  else c.code < c.free_ent ∨ c.code = c.free_ent ∧ c.free_ent < p.maxmaxcode

/-- The first code of a file is a character, and every later code is known. -/
def Known (p : Params) (r : Reader) : Prop :=
  match getcode p (r.start p) with
  | (none, _) => True
  | (some code, r) => code < 256 ∧ ∀ turns, ∀ c ∈ codes p turns r, c.Known p

/-! ## Reading codes -/

/-- A bound on the codes that are still to come: the bits of the buffer in which a code may
start, and nine for every byte of the file. -/
def Reader.left (r : Reader) : ℕ := 9 * r.stdin.length + (r.size - r.offset).toNat

theorem Reader.widen_n_bits (p : Params) (r : Reader) (h : 9 ≤ r.n_bits) :
    9 ≤ (r.widen p).restart.n_bits := by
  unfold Reader.restart
  split
  · exact Nat.le_refl 9
  · unfold Reader.widen
    split
    · exact Nat.le_succ_of_le h
    · exact h

theorem Reader.widen_stdin (p : Params) (r : Reader) :
    (r.widen p).restart.stdin = r.stdin ∧ (r.widen p).restart.free_ent = r.free_ent := by
  have hrestart : (r.widen p).restart.stdin = (r.widen p).stdin ∧
      (r.widen p).restart.free_ent = (r.widen p).free_ent := by
    unfold Reader.restart
    split <;> exact ⟨rfl, rfl⟩
  have hwiden : (r.widen p).stdin = r.stdin ∧ (r.widen p).free_ent = r.free_ent := by
    unfold Reader.widen
    split <;> exact ⟨rfl, rfl⟩
  exact ⟨hrestart.1.trans hwiden.1, hrestart.2.trans hwiden.2⟩

/-- A refill takes at least one byte, and leaves fewer than eight codes for each. -/
theorem Reader.refill_some {r r' : Reader} {code : ℕ} (hn : 9 ≤ r.n_bits)
    (h : r.refill = (some code, r')) :
    r'.left < 9 * r.stdin.length ∧ r'.free_ent = r.free_ent ∧ r'.n_bits = r.n_bits := by
  by_cases hsize : ((r.stdin.take r.n_bits).length : ℤ) ≤ 0
  · have hnone : r.refill = (none, r.fread) := if_pos hsize
    rw [hnone] at h
    exact absurd (congrArg Prod.fst h) nofun
  · have hsome : r.refill = Reader.take { r.fread with
        offset := 0, size := r.fread.size * 8 - (r.n_bits - 1) } := if_neg hsize
    rw [hsome] at h
    obtain rfl := congrArg Prod.snd h
    refine ⟨?_, rfl, rfl⟩
    simp only [Reader.left, Reader.take, Reader.fread, List.length_drop,
      List.length_take] at hsize ⊢
    omega

/-- Every code leaves less of the file. -/
theorem getcode_left {p : Params} {r r' : Reader} {code : ℕ} (hn : 9 ≤ r.n_bits)
    (h : getcode p r = (some code, r')) :
    r'.left < r.left ∧ r'.free_ent = r.free_ent ∧ 9 ≤ r'.n_bits := by
  unfold getcode at h
  split at h
  · obtain ⟨hleft, hfree, hbits⟩ := Reader.refill_some (r.widen_n_bits p hn) h
    obtain ⟨hstdin, hfree'⟩ := r.widen_stdin p
    refine ⟨?_, hfree.trans hfree', hbits ▸ r.widen_n_bits p hn⟩
    rw [hstdin] at hleft
    exact Nat.lt_of_lt_of_le hleft (Nat.le_add_right _ _)
  · rename_i hr
    have hsize : (r.offset : ℤ) < r.size := by
      simp only [not_or] at hr
      exact Int.not_le.1 hr.2.1
    obtain rfl := congrArg Prod.snd h
    refine ⟨?_, rfl, hn⟩
    simp only [Reader.left, Reader.take]
    omega

/-- After a `CLEAR` the entries are counted from the one before the first. -/
theorem nextCode_left {p : Params} {r r' : Reader} {cleared : Bool} {code : ℕ}
    (hn : 9 ≤ r.n_bits) (h : nextCode p r = (some (cleared, code), r')) :
    r'.left < r.left ∧ 9 ≤ r'.n_bits ∧
      (cleared = true → p.block_compress = true ∧ r'.free_ent = FIRST - 1) ∧
      (cleared = false → r'.free_ent = r.free_ent ∧
        (p.block_compress = true → code ≠ CLEAR)) := by
  unfold nextCode at h
  rcases hg : getcode p r with ⟨_ | c, r₁⟩
  · rw [hg] at h
    exact absurd (congrArg Prod.fst h) nofun
  · rw [hg] at h
    obtain ⟨hleft, hfree, hbits⟩ := getcode_left hn hg
    dsimp only at h
    split at h
    · -- the code was a `CLEAR`, and the turn is about the one after it
      rename_i hclear
      rcases hg' : getcode p { r₁ with clear_flg := true, free_ent := FIRST - 1 } with
        ⟨_ | c', r₂⟩
      · rw [hg'] at h
        exact absurd (congrArg Prod.fst h) nofun
      · rw [hg'] at h
        obtain ⟨hleft', hfree', hbits'⟩ := getcode_left (by exact hbits) hg'
        obtain ⟨⟨rfl, rfl⟩, rfl⟩ := h
        exact ⟨Nat.lt_trans hleft' hleft, hbits', fun _ => ⟨hclear.2, hfree'⟩, nofun⟩
    · rename_i hclear
      obtain ⟨⟨rfl, rfl⟩, rfl⟩ := h
      exact ⟨hleft, hbits, nofun, fun _ => ⟨hfree, fun hb hc => hclear ⟨hc, hb⟩⟩⟩

end Compress
