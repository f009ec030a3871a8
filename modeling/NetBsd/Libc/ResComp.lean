import NetBsd.Lib.ByteMem

/-!
# Compressed domain names

`dn_expand`, `dn_comp` and `dn_find` of `net/res_comp.c`. Addresses are offsets in the message; the
list `dnptrs` holds the offsets behind its first element, which points to the message. A name in
text is the list of its characters before the NUL.

## Main definitions

* `dnExpand`, `dnFind`, `dnComp`: the routines
* `State`, `Step`, `Reached`: names and other data put into one message
-/

namespace ResComp

/-- `u_char`. -/
abbrev Byte := BitVec 8

/-- `'.'`. -/
def dot : Byte := 0x2e#8

/-- `'\\'`. -/
def backslash : Byte := 0x5c#8

/-- `INDIR_MASK`. -/
def indirMask : Byte := 0xc0#8

/-- `MAXLABEL`. -/
def maxLabel : ℕ := 63

/-- The offset in a pointer: `((n & 0x3f) << 8) | *cp`. -/
def offset (n c : Byte) : ℕ := (n &&& 0x3f#8).toNat * 256 + c.toNat

/-! ## `dn_expand` -/

/-- The loop over the characters of a label. `dn` is what stands in `exp_dn` so far. -/
def expandLabel (m : ByteMem) (eomorig length : ℕ) : ℕ → ℕ → List Byte → Option (ℕ × List Byte)
  | 0, cp, dn => some (cp, dn)
  | n + 1, cp, dn =>
    let c := m cp
    if c = dot ∧ dn.length + n + 2 ≥ length then none
    else
      let dn := if c = dot then dn ++ [backslash, c] else dn ++ [c]
      if cp + 1 ≥ eomorig then none else expandLabel m eomorig length n (cp + 1) dn

/-- The loop of `dn_expand`. -/
def expandLoop (m : ByteMem) (eomorig comp length : ℕ) :
    ℕ → ℕ → List Byte → Option ℕ → ℕ → Option (List Byte × ℕ)
  | 0, _, _, _, _ => none
  | fuel + 1, cp, dn, len, checked =>
    let n := m cp
    let cp := cp + 1
    if n = 0 then some (dn, len.getD (cp - comp))
    else if n &&& indirMask = 0 then
      if dn ≠ [] ∧ dn.length ≥ length then none
      else
        let dn := if dn ≠ [] then dn ++ [dot] else dn
        if dn.length + n.toNat ≥ length then none
        else
          match expandLabel m eomorig length n.toNat cp dn with
          | none => none
          | some (cp, dn) => expandLoop m eomorig comp length fuel cp dn len (checked + n.toNat + 1)
    else if n &&& indirMask = indirMask then
      let len := len.getD (cp - comp + 1)
      let cp := offset n (m cp)
      if cp ≥ eomorig then none
      else if checked + 2 ≥ eomorig then none
      else expandLoop m eomorig comp length fuel cp dn (some len) (checked + 2)
    else none

/-- `dn_expand`: the name and the size of the compressed name. A round of the loop adds to `checked`,
which a pointer leaves below the size of the message. -/
def dnExpand (m : ByteMem) (eomorig comp length : ℕ) : Option (List Byte × ℕ) :=
  expandLoop m eomorig comp length (eomorig + 1) comp [] none 0

/-! ## `dn_find` -/

/-- The loop over the characters of a label. `none` is the jump to `next`. -/
def matchLabel (m : ByteMem) : ℕ → List Byte → ℕ → Option (List Byte × ℕ)
  | 0, dn, cp => some (dn, cp)
  | n + 1, dn, cp =>
    if dn.headD 0 = dot then none
    else
      let dn := if dn.headD 0 = backslash then dn.tail else dn
      if dn.headD 0 ≠ m cp then none else matchLabel m n dn.tail (cp + 1)

/-- What the search finds at one element of the list. -/
inductive Match where
  | found | next | illegal
  deriving DecidableEq, Repr

/-- The loop over the labels of a name in the message. -/
def matchAt (m : ByteMem) : ℕ → List Byte → ℕ → Match
  | 0, _, _ => .next
  | fuel + 1, dn, cp =>
    let n := m cp
    let cp := cp + 1
    if n = 0 then if dn.headD 0 = 0 then .found else .next
    else if n &&& indirMask = 0 then
      match matchLabel m n.toNat dn cp with
      | none => .next
      | some (dn, cp) =>
        let n := dn.headD 0
        let dn := dn.tail
        if n = 0 ∧ m cp = 0 then .found
        else if n = dot then matchAt m fuel dn cp
        else .next
    else if n &&& indirMask = indirMask then matchAt m fuel dn (offset n (m cp))
    else .illegal

/-- `dn_find`. A name in the message is followed for at most `fuel` labels and pointers. -/
def dnFind (m : ByteMem) (fuel : ℕ) (dn : List Byte) : List ℕ → Option ℕ
  | [] => none
  | sp :: dnptrs =>
    match matchAt m fuel dn sp with
    | .found => some sp
    | .next => dnFind m fuel dn dnptrs
    | .illegal => none

/-! ## `dn_comp` -/

/-- The loop that copies a label, with the character `c` at the head of the list. `none` is the lack
of room. -/
def copyLabel (eob : ℕ) (m : ByteMem) (cp : ℕ) : List Byte → ByteMem × Option (ℕ × List Byte)
  | [] => (m, some (cp, []))
  | c :: dn =>
    if c = dot then (m, some (cp, dn))
    else if c = backslash then
      match dn with
      | [] => (m, some (cp, []))
      | c :: dn => if cp ≥ eob then (m, none) else copyLabel eob (m.put8 cp c) (cp + 1) dn
    else if cp ≥ eob then (m, none)
    else copyLabel eob (m.put8 cp c) (cp + 1) dn

/-- What `dn_comp` returns, and what it leaves in the message and in the list. -/
structure Comp where
  ret : Option ℕ
  m : ByteMem
  dnptrs : List ℕ

/-- The end of `dn_comp`. -/
def compEnd (old : List ℕ) (comp eob : ℕ) (m : ByteMem) (cp : ℕ) (dnptrs : List ℕ) : Comp :=
  if cp ≥ eob then ⟨none, m, old⟩ else ⟨some (cp + 1 - comp), m.put8 cp 0, dnptrs⟩

/-- The loop of `dn_comp`: `old` is the list that is searched, `cap` the number of elements that it
has room for. -/
def compLoop (old : List ℕ) (cap comp eob : ℕ) :
    ℕ → ByteMem → ℕ → List Byte → List ℕ → Comp
  | 0, m, _, _, dnptrs => ⟨none, m, dnptrs⟩
  | fuel + 1, m, cp, dn, dnptrs =>
    if dn = [] then compEnd old comp eob m cp dnptrs
    else
      match dnFind m (comp + 1) dn old with
      | some l =>
        -- the return for lack of room leaves what was saved
        if cp + 1 ≥ eob then ⟨none, m, dnptrs⟩
        else
          ⟨some (cp + 2 - comp),
            (m.put8 cp (BitVec.ofNat 8 (l / 256) ||| indirMask)).put8 (cp + 1)
              (BitVec.ofNat 8 (l % 256)), dnptrs⟩
      | none =>
        let dnptrs := if dnptrs.length < cap then dnptrs ++ [cp] else dnptrs
        let sp := cp
        match copyLabel eob m (cp + 1) dn with
        | (m, none) => ⟨none, m, old⟩
        | (m, some (cp, dn)) =>
          let l := cp - sp - 1
          if l = 0 ∧ dn = [] then compEnd old comp eob m (cp - 1) dnptrs
          else if l = 0 ∨ l > maxLabel then ⟨none, m, old⟩
          else compLoop old cap comp eob fuel (m.put8 sp (BitVec.ofNat 8 l)) cp dn dnptrs

/-- `dn_comp`, with `msg` and `lastdnptr` not null. -/
def dnComp (m : ByteMem) (dn : List Byte) (comp length : ℕ) (dnptrs : List ℕ) (cap : ℕ) : Comp :=
  compLoop dnptrs cap comp (comp + length) (dn.length + 1) m comp dn dnptrs

/-! ## Names in text -/

/-- A label: 1 to 63 characters, none of them NUL. -/
structure IsLabel (l : List Byte) : Prop where
  pos : l ≠ []
  le : l.length ≤ maxLabel
  nul : 0 ∉ l

/-- A character of a label in text. -/
def escape (c : Byte) : List Byte := if c = dot ∨ c = backslash then [backslash, c] else [c]

/-- A name in text. -/
def text : List (List Byte) → List Byte
  | [] => []
  | [l] => l.flatMap escape
  | l :: ls => l.flatMap escape ++ dot :: text ls

/-! ## Messages -/

/-- A name that was put into the message: where it is, its labels, and what `dn_comp` returned. -/
structure Entry where
  start : ℕ
  labels : List (List Byte)
  used : ℕ
  deriving DecidableEq

/-- The message up to `eom`, the list, and the names in the message. -/
structure State where
  m : ByteMem
  eom : ℕ
  dnptrs : List ℕ
  names : List Entry

/-- What a program does. -/
inductive Act where
  | comp (labels : List (List Byte)) (length : ℕ)
  | data (bytes : List Byte)

/-- One action at the end of the message. -/
def step (cap : ℕ) (s : State) : Act → State
  | .comp labels length =>
    let r := dnComp s.m (text labels) s.eom length s.dnptrs cap
    match r.ret with
    | none => { s with m := r.m, dnptrs := r.dnptrs }
    | some n => ⟨r.m, s.eom + n, r.dnptrs, s.names ++ [⟨s.eom, labels, n⟩]⟩
  | .data bytes =>
    { s with m := fun a => if h : s.eom ≤ a ∧ a - s.eom < bytes.length then
      bytes.get ⟨a - s.eom, h.2⟩ else s.m a, eom := s.eom + bytes.length }

/-- The names that a program compresses. -/
def Act.Named : Act → Prop
  | .comp labels _ => ∀ l ∈ labels, IsLabel l
  | .data _ => True

/-- The states of runs from a message without names, whose actions satisfy `P`. -/
inductive Reached (cap : ℕ) (P : State → Act → Prop) : State → Prop where
  | init (m : ByteMem) (eom : ℕ) : Reached cap P ⟨m, eom, [], []⟩
  | step {s : State} (h : Reached cap P s) (act : Act) (hn : act.Named) (hP : P s act) :
      Reached cap P (step cap s act)

end ResComp
