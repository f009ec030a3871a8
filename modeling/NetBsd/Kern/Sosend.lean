import NetBsd.Kern.Mbuf

/-!
# Sending on a socket

`sosend` of `kern/uipc_socket.c` for a message that a `uio` describes. The message is the list of
the bytes that are left in the `uio`; the socket at each test, and what `uiomove` and `pr_usrreq`
return, are those of an environment.

## Main definitions

* `alloc`, `fill`: one mbuf, and the mbufs of one request
* `sendPass`: the requests for which one test of the send buffer is enough
* `sosend`: the routine

## Main results

* `fill_packet`: a request is a packet with the next bytes of the message
* `sosendLoop_done`: the requests carry the message piece by piece
* `sosend_sends`: an atomic protocol gets one request exactly when its headers leave room for it
-/

namespace Sosend

/-! ## The routine -/

/-- `MHLEN`. -/
def mhlen : ℕ := 100

/-- `MINCLSIZE`. -/
def minClSize : ℕ := mhlen + Mbuf.mlen

/-- `MCLBYTES`. -/
def mclBytes : ℕ := 1024

/-- `max_hdr`, which `domaininit` takes from `MHLEN`. -/
structure Config where
  maxHdr : ℕ
  le : maxHdr ≤ mhlen

def EWOULDBLOCK : ℕ := 35
def EPIPE : ℕ := 32
def EDESTADDRREQ : ℕ := 39
def EMSGSIZE : ℕ := 40
def ENOTCONN : ℕ := 57

/-- The flags of the call: `MSG_OOB`, `MSG_DONTROUTE` and `MSG_EOR`. -/
structure Flags where
  oob : Bool
  dontroute : Bool
  eor : Bool

/-- What the socket and its protocol are throughout: `PR_ATOMIC`, `PR_CONNREQUIRED`, and
`SO_DONTROUTE` before the call. -/
structure Socket where
  atomic : Bool
  connrequired : Bool
  dontroute : Bool

/-- What is found at one test: what `sblock` returns if it is called, the state of the socket and of
its send buffer, and what `sbwait` returns if it is called. -/
structure Pass where
  sblock : ℕ
  cantsendmore : Bool
  soError : ℕ
  isconnected : Bool
  isconfirming : Bool
  nbio : Bool
  hiwat : ℤ
  cc : ℤ
  mbmax : ℤ
  mbcnt : ℤ
  lowat : ℤ
  sbwait : ℕ

/-- `sbspace`. -/
def Pass.sbspace (p : Pass) : ℤ := min (p.hiwat - p.cc) (p.mbmax - p.mbcnt)

/-- What the calls find and return, one after the other. -/
structure Env where
  pass : ℕ → Pass
  uiomove : ℕ → ℕ
  usrreq : ℕ → ℕ

/-- A call of `pr_usrreq`: `PRU_SENDOOB` or `PRU_SEND`, with `SO_DONTROUTE` as it is then. -/
structure Request where
  oob : Bool
  dontroute : Bool
  top : List Mbuf
  addr : Option (List UInt8)
  control : Option (List UInt8)

/-- `min` of an unsigned number and a `long`, which counts as unsigned. -/
def umin (a : ℕ) (b : ℤ) : ℕ := if b < 0 then a else min a b.toNat

/-- A new mbuf, the bytes that go into it, and the space that is left. -/
structure Alloc where
  m : Mbuf
  len : ℕ
  space : ℤ

/-- An mbuf behind those of `top`, of a cluster if much is to be sent and the space has room for
one. A cluster takes `MCLBYTES` of the space whatever goes into it. -/
def alloc (cfg : Config) (atomic : Bool) (top : List Mbuf) (resid : ℕ) (space : ℤ) : Alloc :=
  let mlen := if top = [] then mhlen else Mbuf.mlen
  let pkthdr := if top = [] then some 0 else none
  if resid ≥ minClSize ∧ space ≥ mclBytes then
    if top = [] then
      ⟨⟨.data, some mclBytes, pkthdr, false, cfg.maxHdr, []⟩, min (mclBytes - cfg.maxHdr) resid,
        space - mclBytes⟩
    else ⟨⟨.data, some mclBytes, pkthdr, false, 0, []⟩, min mclBytes resid, space - mclBytes⟩
  else
    let len := umin (min mlen resid) space
    let off := if atomic ∧ top = [] ∧ len < mlen then (mhlen - len) / 4 * 4 else 0
    ⟨⟨.data, none, pkthdr, false, off, []⟩, len, space - len⟩

/-- `top->m_pkthdr.len += len`. -/
def addLen (len : ℕ) : List Mbuf → List Mbuf
  | [] => []
  | m :: l => { m with pkthdr := m.pkthdr.map (· + len) } :: l

/-- `top->m_flags |= M_EOR`. -/
def setEor : List Mbuf → List Mbuf
  | [] => []
  | m :: l => { m with eor := true } :: l

/-- What the loop that fills the mbufs of a request leaves. -/
structure Fill where
  error : ℕ
  top : List Mbuf
  uio : List UInt8
  space : ℤ
  moves : ℕ

/-- The loop that fills the mbufs of a request. -/
def fill (cfg : Config) (atomic eor : Bool) (uiomove : ℕ → ℕ) :
    ℕ → List Mbuf → List UInt8 → ℤ → ℕ → Option Fill
  | 0, _, _, _, _ => none
  | fuel + 1, top, uio, space, moves =>
    let a := alloc cfg atomic top uio.length space
    let top := addLen a.len (top ++ [{ a.m with data := uio.take a.len }])
    if uiomove moves ≠ 0 then some ⟨uiomove moves, top, uio, a.space, moves + 1⟩
    else
      let uio := uio.drop a.len
      if uio = [] then some ⟨0, if eor then setEor top else top, uio, a.space, moves + 1⟩
      else if a.space > 0 ∧ atomic then fill cfg atomic eor uiomove fuel top uio a.space (moves + 1)
      else some ⟨0, top, uio, a.space, moves + 1⟩

/-- What is left to be sent, and what was done. -/
structure St where
  uio : List UInt8
  control : Option (List UInt8)
  clen : ℤ
  moves : ℕ
  requests : List Request

/-- The arguments of the call. -/
structure Args where
  so : Socket
  addr : Option (List UInt8)
  uio : List UInt8
  control : Option (List UInt8)
  flags : Flags

/-- `dontroute`. -/
def Args.dontroute (a : Args) : Bool := a.flags.dontroute && !a.so.dontroute && a.so.atomic

/-- One request. -/
def Args.request (a : Args) (s : St) (f : Fill) : St :=
  { s with
    uio := f.uio, control := none, clen := 0, moves := f.moves
    requests := s.requests ++
      [⟨a.flags.oob, a.dontroute || a.so.dontroute, f.top, a.addr, s.control⟩] }

/-- The loop of requests behind a test, with the error that it ends with. -/
def sendPass (cfg : Config) (a : Args) (env : Env) : ℕ → ℤ → St → Option (ℕ × St)
  | 0, _, _ => none
  | fuel + 1, space, s =>
    match fill cfg a.so.atomic a.flags.eor env.uiomove (space.toNat + 1) [] s.uio space s.moves with
    | none => none
    | some f =>
      if f.error ≠ 0 then some (f.error, { s with uio := f.uio, moves := f.moves })
      else
        let error := env.usrreq s.requests.length
        let s := a.request s f
        if error ≠ 0 then some (error, s)
        else if s.uio ≠ [] ∧ f.space > 0 then sendPass cfg a env fuel f.space s
        else some (0, s)

/-- The tests before the space is looked at: the error, or 0. -/
def Args.check (a : Args) (p : Pass) (s : St) : ℕ :=
  if p.cantsendmore then EPIPE
  else if p.soError ≠ 0 then p.soError
  else if !p.isconnected then
    if a.so.connrequired then
      if !p.isconfirming ∧ ¬ (s.uio = [] ∧ s.clen ≠ 0) then ENOTCONN else 0
    else if a.addr = none then EDESTADDRREQ
    else 0
  else 0

/-- The space that a test finds. -/
def Args.space (a : Args) (p : Pass) : ℤ := p.sbspace + if a.flags.oob then 1024 else 0

/-- The test for too little space. -/
def Args.short (a : Args) (p : Pass) (s : St) : Bool :=
  a.space p < s.uio.length + s.clen ∧
    (a.so.atomic ∨ a.space p < p.lowat ∨ a.space p < s.clen)

/-- The loop of `sosend` from the `i`-th test on; `locked` tells whether the send buffer is locked. -/
def sosendLoop (cfg : Config) (a : Args) (env : Env) :
    ℕ → ℕ → Bool → St → Option (ℕ × List Request)
  | 0, _, _, _ => none
  | fuel + 1, i, locked, s =>
    let p := env.pass i
    if !locked ∧ p.sblock ≠ 0 then some (p.sblock, s.requests)
    else if a.check p s ≠ 0 then some (a.check p s, s.requests)
    else if a.short p s then
      if a.so.atomic ∧ (s.uio.length : ℤ) > p.hiwat ∨ s.clen > p.hiwat then
        some (EMSGSIZE, s.requests)
      else if p.nbio then some (EWOULDBLOCK, s.requests)
      else if p.sbwait ≠ 0 then some (p.sbwait, s.requests)
      else sosendLoop cfg a env fuel (i + 1) false s
    else
      match sendPass cfg a env (s.uio.length + 1) (a.space p - s.clen) s with
      | none => none
      | some (error, s) =>
        if error ≠ 0 then some (error, s.requests)
        else if s.uio ≠ [] then sosendLoop cfg a env fuel (i + 1) true s
        else some (0, s.requests)

/-- The state at the beginning. -/
def Args.start (a : Args) : St := ⟨a.uio, a.control, (a.control.map List.length).getD 0, 0, []⟩

/-- `sosend`, which runs through at most `fuel` tests: its error, and its requests. -/
def sosend (cfg : Config) (a : Args) (env : Env) (fuel : ℕ) : Option (ℕ × List Request) :=
  sosendLoop cfg a env fuel 0 false a.start

variable {cfg : Config} {atomic eor : Bool} {uiomove : ℕ → ℕ} {fuel len moves : ℕ} {space : ℤ}
  {top : List Mbuf} {uio : List UInt8} {f : Fill} {a : Args} {env : Env} {s s' : St}

/-! ## One request -/

/-- The end-of-record mark of a packet. -/
def marked (top : List Mbuf) : Bool := top.any Mbuf.eor

/-- A packet whose header tells its length. -/
def Headed (top : List Mbuf) : Prop := ∃ m l, top = m :: l ∧ m.pkthdr = some (Mbuf.lens top)

theorem Headed.ne_nil (h : Headed top) : top ≠ [] := by
  obtain ⟨m, l, rfl, -⟩ := h
  exact List.cons_ne_nil m l

theorem umin_le (a : ℕ) (b : ℤ) : umin a b ≤ a := by
  unfold umin
  split
  · exact Nat.le_refl a
  · exact Nat.min_le_left ..

variable (cfg) (atomic) (top) in
/-- An mbuf of a cluster. -/
theorem alloc_big {resid : ℕ} (h : resid ≥ minClSize ∧ space ≥ mclBytes) :
    (alloc cfg atomic top resid space).len =
        min (if top = [] then mclBytes - cfg.maxHdr else mclBytes) resid ∧
      (alloc cfg atomic top resid space).space = space - mclBytes := by
  by_cases htop : top = []
  · simp only [alloc, if_pos h, if_pos htop, and_self]
  · simp only [alloc, if_pos h, if_neg htop, and_self]

variable (cfg) (atomic) (top) in
/-- An mbuf without a cluster. -/
theorem alloc_small {resid : ℕ} (h : ¬ (resid ≥ minClSize ∧ space ≥ mclBytes)) :
    (alloc cfg atomic top resid space).len =
        umin (min (if top = [] then mhlen else Mbuf.mlen) resid) space ∧
      (alloc cfg atomic top resid space).space =
        space - umin (min (if top = [] then mhlen else Mbuf.mlen) resid) space := by
  simp only [alloc, if_neg h, and_self]

theorem alloc_len_le (cfg : Config) (atomic : Bool) (top : List Mbuf) (resid : ℕ) (space : ℤ) :
    (alloc cfg atomic top resid space).len ≤ resid := by
  by_cases hbig : resid ≥ minClSize ∧ space ≥ mclBytes
  · rw [(alloc_big cfg atomic top hbig).1]
    exact Nat.min_le_right ..
  · rw [(alloc_small cfg atomic top hbig).1]
    exact Nat.le_trans (umin_le ..) (Nat.min_le_right ..)

theorem alloc_m (cfg : Config) (atomic : Bool) (top : List Mbuf) (resid : ℕ) (space : ℤ) :
    (alloc cfg atomic top resid space).m.eor = false ∧
      (top = [] → (alloc cfg atomic top resid space).m.pkthdr = some 0) := by
  by_cases hbig : resid ≥ minClSize ∧ space ≥ mclBytes
  · by_cases htop : top = []
    · simp [alloc, hbig, htop]
    · simp [alloc, hbig, htop]
  · simp only [alloc, if_neg hbig, true_and]
    intro h
    exact if_pos h

/-- One more mbuf behind a packet, counted in its header. -/
theorem headed_addLen {m : Mbuf} (h : top = [] ∨ Headed top) (hm : top = [] → m.pkthdr = some 0)
    (hlen : m.data.length = len) : Headed (addLen len (top ++ [m])) := by
  have hm' : m.len = len := by rw [Mbuf.len, hlen]
  obtain rfl | ⟨m₀, l, rfl, hhead⟩ := h
  · refine ⟨{ m with pkthdr := m.pkthdr.map (· + len) }, [], rfl, ?_⟩
    change m.pkthdr.map (· + (len : ℤ)) = some (m.len + 0)
    rw [hm rfl, hm', Option.map_some, Int.zero_add, Int.add_zero]
  · refine ⟨{ m₀ with pkthdr := m₀.pkthdr.map (· + len) }, l ++ [m], rfl, ?_⟩
    change m₀.pkthdr.map (· + (len : ℤ)) = some (m₀.len + Mbuf.lens (l ++ [m]))
    rw [hhead, Option.map_some, Mbuf.lens_append, Mbuf.lens_cons, Mbuf.lens_cons, Mbuf.lens_nil, hm']
    congr 1
    omega

theorem bytes_addLen (len : ℕ) (top : List Mbuf) : Mbuf.bytes (addLen len top) = Mbuf.bytes top := by
  cases top <;> rfl

theorem marked_addLen (len : ℕ) (top : List Mbuf) : marked (addLen len top) = marked top := by
  cases top <;> rfl

theorem headed_setEor (h : Headed top) : Headed (setEor top) := by
  obtain ⟨m, l, rfl, hhead⟩ := h
  exact ⟨{ m with eor := true }, l, rfl, hhead⟩

theorem bytes_setEor (top : List Mbuf) : Mbuf.bytes (setEor top) = Mbuf.bytes top := by
  cases top <;> rfl

theorem marked_setEor (h : top ≠ []) : marked (setEor top) = true := by
  cases top with
  | nil => exact absurd rfl h
  | cons m l => rfl

/-- A request is a packet with the next bytes of the message. It is marked when it is the last one
and the caller says so. -/
theorem fill_packet (h : fill cfg atomic eor uiomove fuel top uio space moves = some f)
    (hf : f.error = 0) (htop : top = [] ∨ Headed top) (hmark : marked top = false) :
    Headed f.top ∧ Mbuf.bytes f.top ++ f.uio = Mbuf.bytes top ++ uio ∧
      marked f.top = (eor && f.uio.isEmpty) ∧ (atomic = true → f.uio = [] ∨ f.space ≤ 0) := by
  induction fuel generalizing top uio space moves with
  | zero => exact nomatch h
  | succ fuel ih =>
    rw [fill] at h
    have hle := alloc_len_le cfg atomic top uio.length space
    obtain ⟨hplain, hfresh⟩ := alloc_m cfg atomic top uio.length space
    generalize alloc cfg atomic top uio.length space = al at h hle hplain hfresh
    have hhead : Headed (addLen al.len (top ++ [{ al.m with data := uio.take al.len }])) :=
      headed_addLen htop hfresh (by rw [List.length_take, Nat.min_eq_left hle])
    have hbytes : Mbuf.bytes (addLen al.len (top ++ [{ al.m with data := uio.take al.len }])) ++
        uio.drop al.len = Mbuf.bytes top ++ uio := by
      rw [bytes_addLen, Mbuf.bytes_append, List.append_assoc]
      change Mbuf.bytes top ++ ((uio.take al.len ++ []) ++ uio.drop al.len) = _
      rw [List.append_nil, List.take_append_drop]
    have hnone : marked (addLen al.len (top ++ [{ al.m with data := uio.take al.len }])) = false := by
      rw [marked_addLen, marked, List.any_append, List.any_cons, List.any_nil, hplain]
      change (marked top || (false || false)) = false
      rw [hmark]
      rfl
    generalize addLen al.len (top ++ [{ al.m with data := uio.take al.len }]) = top' at *
    dsimp only at h
    split_ifs at h with hmove hend heor hmore
    · obtain rfl := Option.some.inj h
      exact absurd hf hmove
    · obtain rfl := Option.some.inj h
      refine ⟨headed_setEor hhead, ?_, ?_, fun _ => .inl hend⟩
      · rw [bytes_setEor, hbytes]
      · change marked (setEor top') = _
        rw [marked_setEor hhead.ne_nil, heor, hend]
        rfl
    · obtain rfl := Option.some.inj h
      refine ⟨hhead, hbytes, ?_, fun _ => .inl hend⟩
      change marked top' = _
      rw [hnone, eq_false_of_ne_true heor]
      rfl
    · obtain ⟨hhead', hbytes', hmark', hstop⟩ := ih h (.inr hhead) hnone
      exact ⟨hhead', hbytes'.trans hbytes, hmark', hstop⟩
    · obtain rfl := Option.some.inj h
      refine ⟨hhead, hbytes, ?_, fun hat => .inr (Int.not_lt.mp fun hlt => hmore ⟨hlt, hat⟩)⟩
      change marked top' = (eor && (uio.drop al.len).isEmpty)
      rw [hnone, List.isEmpty_eq_false_iff.mpr hend, Bool.and_false]

/-! ## The space that a request takes -/

theorem umin_eq {b : ℤ} (h : 0 ≤ b) (a : ℕ) : umin a b = min a b.toNat := if_neg (Int.not_lt.mpr h)

variable (cfg) (atomic) in
/-- Behind the first mbuf, the space falls by at most what is sent, and by just that if the message
is longer. -/
theorem alloc_rest (htop : top ≠ []) (resid : ℕ) (h0 : 0 ≤ space) :
    ((resid : ℤ) ≤ space → ((resid - (alloc cfg atomic top resid space).len : ℕ) : ℤ) ≤
        (alloc cfg atomic top resid space).space ∨
          resid - (alloc cfg atomic top resid space).len = 0) ∧
      (space < resid → 0 ≤ (alloc cfg atomic top resid space).space ∧
        (alloc cfg atomic top resid space).space <
          ((resid - (alloc cfg atomic top resid space).len : ℕ) : ℤ)) := by
  by_cases hbig : resid ≥ minClSize ∧ space ≥ mclBytes
  · obtain ⟨hlen, hspace⟩ := alloc_big cfg atomic top hbig
    rw [if_neg htop] at hlen
    rw [hlen, hspace]
    have hcl : mclBytes = 1024 := rfl
    obtain ⟨-, hroom⟩ := hbig
    constructor
    · intro hle
      by_cases hmore : resid ≤ mclBytes
      · right
        omega
      · left
        omega
    · intro hlt
      omega
  · obtain ⟨hlen, hspace⟩ := alloc_small cfg atomic top hbig
    rw [if_neg htop, umin_eq h0] at hlen hspace
    rw [hlen, hspace]
    constructor
    · intro hle
      left
      omega
    · intro hlt
      omega

/-- What is left of a message for which the space has room, and of one that is too long. -/
theorem fill_rest (h : fill cfg true eor uiomove fuel top uio space moves = some f)
    (hf : f.error = 0) (htop : top ≠ []) (h0 : 0 ≤ space) :
    ((uio.length : ℤ) ≤ space → f.uio = []) ∧ (space < uio.length → f.uio ≠ []) := by
  induction fuel generalizing top uio space moves with
  | zero => exact nomatch h
  | succ fuel ih =>
    rw [fill] at h
    obtain ⟨hroom, hlong⟩ := alloc_rest cfg true htop uio.length h0
    generalize alloc cfg true top uio.length space = al at h hroom hlong
    have htop' : addLen al.len (top ++ [{ al.m with data := uio.take al.len }]) ≠ [] := by
      cases top with
      | nil => exact absurd rfl htop
      | cons m l => exact List.cons_ne_nil _ _
    generalize addLen al.len (top ++ [{ al.m with data := uio.take al.len }]) = top' at h htop'
    rw [← List.length_drop] at hroom hlong
    generalize uio.drop al.len = rest at h hroom hlong
    dsimp only at h
    -- a message that is too long has bytes left behind every mbuf
    have hleft : space < uio.length → rest ≠ [] := by
      rintro hlt rfl
      obtain ⟨hpos, hless⟩ := hlong hlt
      rw [List.length_nil] at hless
      omega
    split_ifs at h with hmove hend heor hmore
    · obtain rfl := Option.some.inj h
      exact absurd hf hmove
    · obtain rfl := Option.some.inj h
      exact ⟨fun _ => hend, hleft⟩
    · obtain rfl := Option.some.inj h
      exact ⟨fun _ => hend, hleft⟩
    · obtain ⟨hfit, hover⟩ := ih h htop' (Int.le_of_lt hmore.1)
      refine ⟨fun hle => ?_, fun hlt => hover (hlong hlt).2⟩
      obtain hle | hnil := hroom hle
      · exact hfit hle
      · exact absurd (List.length_eq_zero_iff.mp hnil) hend
    · obtain rfl := Option.some.inj h
      refine ⟨fun hle => ?_, hleft⟩
      obtain hle | hnil := hroom hle
      · have hpos := List.length_pos_iff.mpr hend
        exact absurd ⟨by omega, rfl⟩ hmore
      · exact List.length_eq_zero_iff.mp hnil

/-- The headers in the first cluster leave too little of the space: `space` is what a test leaves for
a message of `resid` bytes. -/
def Overruns (cfg : Config) (resid : ℕ) (space : ℤ) : Prop :=
  (mclBytes : ℤ) ≤ space ∧ mclBytes - cfg.maxHdr < resid ∧ space < resid + cfg.maxHdr

/-- The first mbuf leaves room for the rest of the message unless the headers overrun the space. -/
theorem alloc_first {resid : ℕ} (h : (resid : ℤ) ≤ space) :
    ((resid - (alloc cfg true [] resid space).len : ℕ) : ℤ) ≤
        (alloc cfg true [] resid space).space ∨
      resid - (alloc cfg true [] resid space).len = 0 ↔ ¬ Overruns cfg resid space := by
  have hmhlen : mhlen = 100 := rfl
  have hmlen : Mbuf.mlen = 108 := rfl
  have hmin : minClSize = mhlen + Mbuf.mlen := rfl
  have hcl : mclBytes = 1024 := rfl
  have hhdr := cfg.le
  unfold Overruns
  by_cases hbig : resid ≥ minClSize ∧ space ≥ mclBytes
  · obtain ⟨hlen, hspace⟩ := alloc_big cfg true [] hbig
    rw [if_pos rfl] at hlen
    rw [hlen, hspace]
    omega
  · obtain ⟨hlen, hspace⟩ := alloc_small cfg true [] hbig
    rw [if_pos rfl, umin_eq (by omega)] at hlen hspace
    rw [hlen, hspace]
    omega

/-- The request of an atomic protocol takes all of a message for which there is room, unless the
headers overrun the space. -/
theorem fill_all (h : fill cfg true eor uiomove fuel [] uio space moves = some f)
    (hf : f.error = 0) (hroom : (uio.length : ℤ) ≤ space) :
    f.uio = [] ↔ ¬ Overruns cfg uio.length space := by
  cases fuel with
  | zero => exact nomatch h
  | succ fuel =>
    rw [fill] at h
    rw [← alloc_first hroom]
    generalize alloc cfg true [] uio.length space = al at h ⊢
    have htop' : addLen al.len ([] ++ [{ al.m with data := uio.take al.len }]) ≠ [] := nofun
    generalize addLen al.len ([] ++ [{ al.m with data := uio.take al.len }]) = top' at h htop'
    rw [← List.length_drop]
    generalize uio.drop al.len = rest at h ⊢
    dsimp only at h
    rw [List.length_eq_zero_iff]
    split_ifs at h with hmove hend heor hmore
    · obtain rfl := Option.some.inj h
      exact absurd hf hmove
    · obtain rfl := Option.some.inj h
      exact iff_of_true hend (.inr hend)
    · obtain rfl := Option.some.inj h
      exact iff_of_true hend (.inr hend)
    · obtain ⟨hfit, hover⟩ := fill_rest h hf htop' (Int.le_of_lt hmore.1)
      rw [or_iff_left hend]
      exact ⟨fun hdone => Int.not_lt.mp fun hlt => hover hlt hdone, hfit⟩
    · obtain rfl := Option.some.inj h
      have hpos := List.length_pos_iff.mpr hend
      refine iff_of_false hend ?_
      rintro (hle | hnil)
      · exact hmore ⟨by omega, rfl⟩
      · exact hend hnil

/-! ## The loops end -/

/-- An mbuf that leaves space took bytes and space. -/
theorem alloc_progress {resid : ℕ} (h0 : 0 < resid)
    (h : 0 < (alloc cfg atomic top resid space).space) :
    0 < (alloc cfg atomic top resid space).len ∧
      (alloc cfg atomic top resid space).space < space := by
  have hhdr := cfg.le
  have hmhlen : mhlen = 100 := rfl
  have hcl : mclBytes = 1024 := rfl
  by_cases hbig : resid ≥ minClSize ∧ space ≥ mclBytes
  · obtain ⟨hlen, hspace⟩ := alloc_big cfg atomic top hbig
    rw [hlen, hspace]
    refine ⟨?_, by omega⟩
    split_ifs <;> omega
  · obtain ⟨hlen, hspace⟩ := alloc_small cfg atomic top hbig
    rw [hspace] at h
    have hpos : 0 < min (if top = [] then mhlen else Mbuf.mlen) resid := by
      have hmlen : Mbuf.mlen = 108 := rfl
      split_ifs <;> omega
    have hsp : 0 < space := by omega
    rw [hlen, hspace, umin_eq (Int.le_of_lt hsp)]
    omega

theorem fill_isSome (h : space.toNat < fuel) :
    (fill cfg atomic eor uiomove fuel top uio space moves).isSome = true := by
  induction fuel generalizing top uio space moves with
  | zero => exact absurd h (Nat.not_lt_zero _)
  | succ fuel ih =>
    rw [fill]
    dsimp only
    split_ifs with hmove hend heor hmore
    · rfl
    · rfl
    · rfl
    · apply ih
      have hpos : 0 < uio.length := by
        cases uio with
        | nil => exact absurd (List.drop_nil) hend
        | cons c l => exact Nat.succ_pos _
      obtain ⟨-, hless⟩ := alloc_progress hpos hmore.1
      omega
    · rfl

theorem fill_le (h : fill cfg atomic eor uiomove fuel top uio space moves = some f) :
    f.uio.length ≤ uio.length ∧
      (0 < f.space → uio ≠ [] → f.error = 0 → f.uio.length < uio.length) := by
  induction fuel generalizing top uio space moves with
  | zero => exact nomatch h
  | succ fuel ih =>
    rw [fill] at h
    have hdrop : (uio.drop (alloc cfg atomic top uio.length space).len).length ≤ uio.length := by
      rw [List.length_drop]
      exact Nat.sub_le ..
    have hless : 0 < (alloc cfg atomic top uio.length space).space → uio ≠ [] →
        (uio.drop (alloc cfg atomic top uio.length space).len).length < uio.length := by
      intro hsp hne
      have hpos := List.length_pos_iff.mpr hne
      obtain ⟨hlen, -⟩ := alloc_progress hpos hsp
      rw [List.length_drop]
      omega
    dsimp only at h
    split_ifs at h with hmove hend heor hmore
    · obtain rfl := Option.some.inj h
      exact ⟨Nat.le_refl _, fun _ _ herr => absurd herr hmove⟩
    · obtain rfl := Option.some.inj h
      exact ⟨hdrop, fun hsp hne _ => hless hsp hne⟩
    · obtain rfl := Option.some.inj h
      exact ⟨hdrop, fun hsp hne _ => hless hsp hne⟩
    · obtain ⟨hle, -⟩ := ih h
      exact ⟨Nat.le_trans hle hdrop, fun _ hne _ =>
        Nat.lt_of_le_of_lt hle (hless hmore.1 hne)⟩
    · obtain rfl := Option.some.inj h
      exact ⟨hdrop, fun hsp hne _ => hless hsp hne⟩

/-- The loop of requests comes to its end; only waiting can go on for ever. -/
theorem sendPass_isSome (h : s.uio.length < fuel) :
    (sendPass cfg a env fuel space s).isSome = true := by
  induction fuel generalizing space s with
  | zero => exact absurd h (Nat.not_lt_zero _)
  | succ fuel ih =>
    rw [sendPass]
    have hsome : (fill cfg a.so.atomic a.flags.eor env.uiomove (space.toNat + 1) [] s.uio space
        s.moves).isSome = true := fill_isSome (Nat.lt_succ_self space.toNat)
    cases hfill : fill cfg a.so.atomic a.flags.eor env.uiomove (space.toNat + 1) [] s.uio space
      s.moves with
    | none =>
      rw [hfill] at hsome
      exact nomatch hsome
    | some f =>
      dsimp only
      split_ifs with hmove hreq hmore
      · rfl
      · rfl
      · obtain ⟨hle, hless⟩ := fill_le hfill
        obtain ⟨hmore, hsp⟩ := hmore
        apply ih
        change f.uio.length < fuel
        have hne : s.uio ≠ [] := by
          intro hnil
          rw [hnil, List.length_nil] at hle
          exact hmore (List.length_eq_zero_iff.mp (Nat.le_zero.mp hle))
        have hlt := hless hsp hne (not_not.mp hmove)
        omega
      · rfl

/-! ## Runs -/

/-- The requests carry the message: piece by piece and in order, with the right length in the header
of each, the control mbuf with the first, and the mark on the last. An atomic protocol gets one. -/
structure Carried (a : Args) (reqs : List Request) : Prop where
  data : reqs.flatMap (fun r => Mbuf.bytes r.top) = a.uio
  headed : ∀ r ∈ reqs, Headed r.top
  kind : ∀ r ∈ reqs, r.oob = a.flags.oob
  control : reqs.map Request.control = a.control :: List.replicate (reqs.length - 1) none
  eor : reqs.map (fun r => marked r.top) =
    List.replicate (reqs.length - 1) false ++ [a.flags.eor]
  once : a.so.atomic = true → reqs.length = 1

/-- What was sent of the message, before its end. -/
structure Going (a : Args) (s : St) : Prop where
  data : s.requests.flatMap (fun r => Mbuf.bytes r.top) ++ s.uio = a.uio
  headed : ∀ r ∈ s.requests, Headed r.top
  kind : ∀ r ∈ s.requests, r.oob = a.flags.oob
  control : s.requests.map Request.control ++ [s.control] =
    a.control :: List.replicate s.requests.length none
  eor : s.requests.map (fun r => marked r.top) = List.replicate s.requests.length false

/-- All of the message was sent. -/
structure Done (a : Args) (s : St) : Prop where
  data : s.requests.flatMap (fun r => Mbuf.bytes r.top) = a.uio
  headed : ∀ r ∈ s.requests, Headed r.top
  kind : ∀ r ∈ s.requests, r.oob = a.flags.oob
  control : s.requests.map Request.control =
    a.control :: List.replicate (s.requests.length - 1) none
  eor : s.requests.map (fun r => marked r.top) =
    List.replicate (s.requests.length - 1) false ++ [a.flags.eor]

theorem Args.start_going (a : Args) : Going a a.start :=
  ⟨rfl, nofun, nofun, rfl, rfl⟩

/-- One request brings the message on, or to its end. -/
theorem Going.request (h : Going a s) (hhead : Headed f.top)
    (hdata : Mbuf.bytes f.top ++ f.uio = s.uio)
    (hmark : marked f.top = (a.flags.eor && f.uio.isEmpty)) :
    (f.uio ≠ [] → Going a (a.request s f)) ∧ (f.uio = [] → Done a (a.request s f)) := by
  have hheaded : ∀ r ∈ (a.request s f).requests, Headed r.top := by
    intro r hr
    obtain hr | hr := List.mem_append.mp hr
    · exact h.headed r hr
    · obtain rfl := List.mem_singleton.mp hr
      exact hhead
  have hkind : ∀ r ∈ (a.request s f).requests, r.oob = a.flags.oob := by
    intro r hr
    obtain hr | hr := List.mem_append.mp hr
    · exact h.kind r hr
    · obtain rfl := List.mem_singleton.mp hr
      rfl
  have hcontrol : (a.request s f).requests.map Request.control =
      a.control :: List.replicate s.requests.length none := by
    rw [← h.control]
    exact List.map_append
  have heor : (a.request s f).requests.map (fun r => marked r.top) =
      List.replicate s.requests.length false ++ [marked f.top] := by
    rw [← h.eor]
    exact List.map_append
  have hlen : (a.request s f).requests.length = s.requests.length + 1 := List.length_append
  have hbytes : (a.request s f).requests.flatMap (fun r => Mbuf.bytes r.top) =
      s.requests.flatMap (fun r => Mbuf.bytes r.top) ++ Mbuf.bytes f.top := by
    change (s.requests ++ [_]).flatMap _ = _
    rw [List.flatMap_append, List.flatMap_singleton]
  constructor
  · intro hmore
    refine ⟨?_, hheaded, hkind, ?_, ?_⟩
    · rw [hbytes, List.append_assoc]
      change _ ++ (_ ++ f.uio) = _
      rw [hdata, h.data]
    · rw [hcontrol, hlen, List.replicate_succ']
      rfl
    · rw [heor, hmark, List.isEmpty_eq_false_iff.mpr hmore, Bool.and_false, hlen,
        List.replicate_succ']
  · intro hend
    refine ⟨?_, hheaded, hkind, ?_, ?_⟩
    · rw [hend, List.append_nil] at hdata
      rw [hbytes, hdata, h.data]
    · rw [hcontrol, hlen, Nat.add_sub_cancel]
    · rw [heor, hmark, hend, hlen, Nat.add_sub_cancel, List.isEmpty_nil, Bool.and_true]

/-- The requests behind one test. -/
theorem sendPass_spec (h : sendPass cfg a env fuel space s = some (0, s')) (hg : Going a s) :
    s.requests.length < s'.requests.length ∧ (s'.uio ≠ [] → Going a s') ∧
      (s'.uio = [] → Done a s') := by
  induction fuel generalizing space s with
  | zero => exact nomatch h
  | succ fuel ih =>
    rw [sendPass] at h
    cases hfill : fill cfg a.so.atomic a.flags.eor env.uiomove (space.toNat + 1) [] s.uio space
      s.moves with
    | none =>
      rw [hfill] at h
      exact nomatch h
    | some f =>
      simp only [hfill] at h
      split_ifs at h with hmove hreq hmore
      · exact absurd (Prod.mk.inj (Option.some.inj h)).1 hmove
      · exact absurd (Prod.mk.inj (Option.some.inj h)).1 hreq
      · obtain ⟨hhead, hdata, hmark, -⟩ :=
          fill_packet hfill (not_not.mp hmove) (.inl rfl) rfl
        obtain ⟨hgoing, -⟩ := hg.request hhead hdata hmark
        obtain ⟨hlen, hspec⟩ := ih h (hgoing hmore.1)
        have hone : (a.request s f).requests.length = s.requests.length + 1 := List.length_append
        exact ⟨by omega, hspec⟩
      · obtain rfl := (Prod.mk.inj (Option.some.inj h)).2
        obtain ⟨hhead, hdata, hmark, -⟩ :=
          fill_packet hfill (not_not.mp hmove) (.inl rfl) rfl
        have hone : (a.request s f).requests.length = s.requests.length + 1 := List.length_append
        exact ⟨by omega, hg.request hhead hdata hmark⟩

/-- An atomic protocol gets one request behind a test, with all of the message if the headers do not
overrun the space. -/
theorem sendPass_atomic (h : sendPass cfg a env fuel space s = some (0, s'))
    (hat : a.so.atomic = true) (hroom : (s.uio.length : ℤ) ≤ space) :
    s'.requests.length = s.requests.length + 1 ∧
      (s'.uio = [] ↔ ¬ Overruns cfg s.uio.length space) := by
  cases fuel with
  | zero => exact nomatch h
  | succ fuel =>
    rw [sendPass] at h
    cases hfill : fill cfg a.so.atomic a.flags.eor env.uiomove (space.toNat + 1) [] s.uio space
      s.moves with
    | none =>
      rw [hfill] at h
      exact nomatch h
    | some f =>
      simp only [hfill] at h
      split_ifs at h with hmove hreq hmore
      · exact absurd (Prod.mk.inj (Option.some.inj h)).1 hmove
      · exact absurd (Prod.mk.inj (Option.some.inj h)).1 hreq
      · obtain ⟨-, -, -, hstop⟩ := fill_packet hfill (not_not.mp hmove) (.inl rfl) rfl
        obtain hnil | hle := hstop hat
        · exact absurd hnil hmore.1
        · exact absurd hmore.2 (Int.not_lt.mpr hle)
      · obtain rfl := (Prod.mk.inj (Option.some.inj h)).2
        rw [hat] at hfill
        exact ⟨List.length_append, fill_all hfill (not_not.mp hmove) hroom⟩

theorem sosendLoop_done {i : ℕ} {locked : Bool} {reqs : List Request}
    (h : sosendLoop cfg a env fuel i locked s = some (0, reqs)) (hg : Going a s) :
    ∃ s', Done a s' ∧ reqs = s'.requests ∧ s.requests.length < reqs.length := by
  induction fuel generalizing i locked s with
  | zero => exact nomatch h
  | succ fuel ih =>
    rw [sosendLoop] at h
    split_ifs at h with hblock hcheck hshort hbig hnbio hwait
    · exact absurd (Prod.mk.inj (Option.some.inj h)).1 hblock.2
    · exact absurd (Prod.mk.inj (Option.some.inj h)).1 hcheck
    · exact absurd (Prod.mk.inj (Option.some.inj h)).1 (by decide)
    · exact absurd (Prod.mk.inj (Option.some.inj h)).1 (by decide)
    · exact absurd (Prod.mk.inj (Option.some.inj h)).1 hwait
    · exact ih h hg
    · cases hpass : sendPass cfg a env (s.uio.length + 1) (a.space (env.pass i) - s.clen) s with
      | none =>
        rw [hpass] at h
        exact nomatch h
      | some r =>
        obtain ⟨error, s'⟩ := r
        simp only [hpass] at h
        split_ifs at h with herror hmore
        · exact absurd (Prod.mk.inj (Option.some.inj h)).1 herror
        · obtain rfl := not_not.mp herror
          obtain ⟨hlen, hgoing, -⟩ := sendPass_spec hpass hg
          obtain ⟨s'', hdone, hreqs, hlen'⟩ := ih h (hgoing hmore)
          exact ⟨s'', hdone, hreqs, by omega⟩
        · obtain rfl := not_not.mp herror
          obtain ⟨hlen, -, hdone⟩ := sendPass_spec hpass hg
          obtain rfl := (Prod.mk.inj (Option.some.inj h)).2
          exact ⟨s', hdone (not_not.mp hmore), rfl, hlen⟩

/-- The first test that finds enough space, of a call that ends well. -/
theorem sosendLoop_first {i j : ℕ} {locked : Bool} {reqs : List Request}
    (h : sosendLoop cfg a env fuel j locked s = some (0, reqs)) (hg : Going a s) (hji : j ≤ i)
    (hwait : ∀ k, j ≤ k → k < i → a.short (env.pass k) s = true)
    (hgo : a.short (env.pass i) s = false) :
    ∃ s', sendPass cfg a env (s.uio.length + 1) (a.space (env.pass i) - s.clen) s = some (0, s') ∧
      (s'.uio = [] → reqs = s'.requests) ∧
      (s'.uio ≠ [] → s'.requests.length < reqs.length) := by
  induction fuel generalizing j locked with
  | zero => exact nomatch h
  | succ fuel ih =>
    rw [sosendLoop] at h
    split_ifs at h with hblock hcheck hshort hbig hnbio hsbwait
    · exact absurd (Prod.mk.inj (Option.some.inj h)).1 hblock.2
    · exact absurd (Prod.mk.inj (Option.some.inj h)).1 hcheck
    · exact absurd (Prod.mk.inj (Option.some.inj h)).1 (by decide)
    · exact absurd (Prod.mk.inj (Option.some.inj h)).1 (by decide)
    · exact absurd (Prod.mk.inj (Option.some.inj h)).1 hsbwait
    · have hne : j ≠ i := by
        rintro rfl
        rw [hgo] at hshort
        exact nomatch hshort
      exact ih h (by omega) fun k hk => hwait k (by omega)
    · have heq : j = i := by
        by_contra hne
        exact hshort (hwait j (Nat.le_refl j) (by omega))
      subst heq
      cases hpass : sendPass cfg a env (s.uio.length + 1) (a.space (env.pass j) - s.clen) s with
      | none =>
        rw [hpass] at h
        exact nomatch h
      | some r =>
        obtain ⟨error, s'⟩ := r
        simp only [hpass] at h
        split_ifs at h with herror hmore
        · exact absurd (Prod.mk.inj (Option.some.inj h)).1 herror
        · obtain rfl := not_not.mp herror
          obtain ⟨-, hgoing, -⟩ := sendPass_spec hpass hg
          obtain ⟨-, -, -, hlen⟩ := sosendLoop_done h (hgoing hmore)
          exact ⟨s', rfl, fun hnil => absurd hnil hmore, fun _ => hlen⟩
        · obtain rfl := not_not.mp herror
          obtain rfl := (Prod.mk.inj (Option.some.inj h)).2
          exact ⟨s', rfl, fun _ => rfl, fun hne => absurd hne hmore⟩

/-- A call of `sosend` that ends well carries the message, in one request for an atomic protocol,
exactly when at the test that finds enough space the headers of an atomic protocol do not overrun
it. -/
theorem sosend_sends {reqs : List Request} (h : sosend cfg a env fuel = some (0, reqs)) {i : ℕ}
    (hwait : ∀ k < i, a.short (env.pass k) a.start = true)
    (hgo : a.short (env.pass i) a.start = false) :
    Carried a reqs ↔ (a.so.atomic = true →
      ¬ Overruns cfg a.uio.length (a.space (env.pass i) - a.start.clen)) := by
  obtain ⟨s', hdone, rfl, hlen⟩ := sosendLoop_done h a.start_going
  obtain ⟨t, hpass, hend, hmore⟩ := sosendLoop_first h a.start_going (Nat.zero_le i)
    (fun k _ hk => hwait k hk) hgo
  have hroom : a.so.atomic = true →
      (a.uio.length : ℤ) ≤ a.space (env.pass i) - a.start.clen := by
    intro hat
    by_contra hlt
    rw [Args.short, decide_eq_false_iff_not] at hgo
    refine hgo ⟨?_, .inl hat⟩
    change a.space (env.pass i) < (a.uio.length : ℤ) + a.start.clen
    omega
  constructor
  · intro hcarried hat hover
    obtain ⟨hone, hiff⟩ := sendPass_atomic hpass hat (hroom hat)
    have hless := hmore fun hnil => hiff.mp hnil hover
    have hone' := hcarried.once hat
    omega
  · intro hfits
    refine ⟨hdone.data, hdone.headed, hdone.kind, hdone.control, hdone.eor, fun hat => ?_⟩
    obtain ⟨hone, hiff⟩ := sendPass_atomic hpass hat (hroom hat)
    rw [hend (hiff.mpr (hfits hat)), hone]
    rfl

/-- A connected datagram socket with an empty send buffer of 1024 bytes, every time. -/
def sampleEnv : Env where
  pass _ := ⟨0, false, 0, true, false, false, 1024, 0, 4096, 0, 2048, 0⟩
  uiomove _ := 0
  usrreq _ := 0

/-- A message of `n` bytes, with `MSG_EOR`. -/
def sampleArgs (n : ℕ) : Args where
  so := ⟨true, false, false⟩
  addr := none
  uio := List.replicate n 0
  control := none
  flags := ⟨false, false, true⟩

/-- Room for the headers of a link, and of TCP and IP. -/
def sampleConfig : Config := ⟨56, by decide⟩

theorem sosend_sends_small : ∃ reqs, sosend sampleConfig (sampleArgs 3) sampleEnv 1 = some (0, reqs) ∧
    (Carried (sampleArgs 3) reqs ↔ ((sampleArgs 3).so.atomic = true →
      ¬ Overruns sampleConfig (sampleArgs 3).uio.length
        ((sampleArgs 3).space (sampleEnv.pass 0) - (sampleArgs 3).start.clen))) := by
  have hrun : sosend sampleConfig (sampleArgs 3) sampleEnv 1 = some (0, _) := rfl
  exact ⟨_, hrun, sosend_sends hrun (fun k hk => absurd hk (Nat.not_lt_zero k)) (by decide)⟩

/-- A message that just fills the send buffer goes out in two requests. -/
theorem not_sosend_sends : ¬ ∀ cfg a env fuel reqs,
    sosend cfg a env fuel = some (0, reqs) → Carried a reqs := by
  intro h
  have hrun : (sosend sampleConfig (sampleArgs 1024) sampleEnv 3).map
      (fun r => (r.1, r.2.length)) = some (0, 2) := by decide +kernel
  obtain ⟨⟨error, reqs⟩, hsome, hlen⟩ := Option.map_eq_some_iff.mp hrun
  obtain ⟨rfl, hlen⟩ := Prod.mk.inj hlen
  have hone := (h _ _ _ _ _ hsome).once rfl
  change reqs.length = 2 at hlen
  omega

end Sosend
