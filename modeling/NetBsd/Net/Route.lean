import Mathlib.Data.Finset.Card
import Mathlib.Data.Finset.Insert
import Mathlib.Data.Int.Notation

/-!
# Routing table entries

The functions of `net/route.c` that look up, make, delete and release entries of the routing table,
as far as they are about which entries exist and how many references there are to them. What the
radix tree finds, whether it takes a new entry and whether there is memory are arguments. A
function that touches an entry which has been freed has no result.

## Main definitions

* `Rtentry`, `State`: an entry, and the table with the references that callers hold
* `rtfree`, `RTFREE`, `rtalloc1`, `rtalloc`, `makeroute`, `resolve`, `rtrequestAdd`,
  `rtrequestDelete`, `ifaIfwithroute`, `rtredirect`: the functions
* `Call`, `step`: the calls, and what they hand out and take back
-/

namespace Route

/-- An address with its length. -/
abbrev Sockaddr := List UInt8

/-- `struct rtentry`, with the flags that decide about references; `mask` is the mask of its node,
and `ifp` is whether `rt_ifp` is set. -/
structure Rtentry where
  refcnt : ℤ
  up : Bool
  cloning : Bool
  gatewayed : Bool
  host : Bool
  gateway : Sockaddr
  mask : Option Sockaddr
  genmask : Option Sockaddr
  ifp : Bool
  deriving DecidableEq, Repr

/-- The entries that have been allocated and not freed, those in the tree, `rttrash`, the next
entry to be allocated, and the references handed out and not released. -/
structure State where
  entries : ℕ → Option Rtentry
  tree : Finset ℕ
  rttrash : ℤ
  next : ℕ
  held : List ℕ

inductive Errno where
  | ESRCH | ENETUNREACH | ENOBUFS | EEXIST | EINVAL | EHOSTUNREACH | ENOSPC
  deriving DecidableEq, Repr

def State.set (s : State) (rt : ℕ) (e : Rtentry) : State :=
  { s with entries := Function.update s.entries rt (some e) }

/-! ## Releasing -/

/-- `rtfree`, which panics for an entry in the tree that it would free. -/
def rtfree (s : State) (rt : ℕ) : Option State := do
  let e ← s.entries rt
  let e := { e with refcnt := e.refcnt - 1 }
  if e.refcnt ≤ 0 ∧ e.up = false then
    if rt ∈ s.tree then none
    else some { s with
      rttrash := s.rttrash - 1
      entries := Function.update s.entries rt none }
  else some (s.set rt e)

def RTFREE (s : State) (rt : ℕ) : Option State := do
  let e ← s.entries rt
  if e.refcnt ≤ 1 then rtfree s rt
  else some (s.set rt { e with refcnt := e.refcnt - 1 })

/-! ## Making entries -/

/-- `rtrequest` from `makeroute` on, for the entry `e`: is there memory, does the tree take the
entry, and does the caller want a reference? -/
def makeroute (s : State) (e : Rtentry) (malloc addroute ret : Bool) : State × Except Errno ℕ :=
  if malloc = false then (s, .error .ENOBUFS)
  else if addroute = false then (s, .error .EEXIST)
  else ({ s with
      entries := Function.update s.entries s.next
        (some { e with up := true, refcnt := if ret then 1 else 0 })
      tree := insert s.next s.tree
      next := s.next + 1 }, .ok s.next)

/-- `rtrequest(RTM_RESOLVE)` for the route `ret`: is there a tree for the address family, is there
memory, and does the tree take the entry? -/
def resolve (s : State) (rnh : Bool) (ret : Option ℕ) (malloc addroute : Bool) :
    Option (State × Except Errno ℕ) :=
  if rnh = false then some (s, .error .ESRCH)
  else match ret with
    | none => some (s, .error .EINVAL)
    | some rt => do
      let e ← s.entries rt
      let e := { e with
        cloning := false, host := e.host || e.genmask.isNone, mask := e.genmask, genmask := none }
      some (makeroute s e malloc addroute true)

/-- `rtalloc1`, when the tree finds `found`. -/
def rtalloc1 (s : State) (report : Bool) (found : Option ℕ) (malloc addroute : Bool) :
    Option (State × Option ℕ) :=
  match found with
  | none => some (s, none)
  | some rt => do
    let e ← s.entries rt
    if report ∧ e.cloning then
      let r ← resolve s true (some rt) malloc addroute
      match r with
      -- `newrt` is still the entry that was found
      | (s, .error _) => some (s, some rt)
      | (s, .ok new) => some (s, some new)
    else some (s.set rt { e with refcnt := e.refcnt + 1 }, some rt)

/-- `rtalloc`: what is in the route afterwards, when `ro` is in it before. -/
def rtalloc (s : State) (ro found : Option ℕ) (malloc addroute : Bool) :
    Option (State × Option ℕ) :=
  match ro with
  | none => rtalloc1 s true found malloc addroute
  | some rt => do
    let e ← s.entries rt
    if e.ifp ∧ e.up then some (s, some rt) else rtalloc1 s true found malloc addroute

/-- `ifa_ifwithroute`: whether it finds an interface, by its address or else by a route. -/
def ifaIfwithroute (s : State) (direct : Bool) (found : Option ℕ) : Option (State × Bool) :=
  if direct then some (s, true)
  else do
    let r ← rtalloc1 s false found true true
    match r with
    | (s, none) => some (s, false)
    | (s, some rt) => do
      let e ← s.entries rt
      some (s.set rt { e with refcnt := e.refcnt - 1 }, true)

/-- What `RTM_ADD` meets: is there a tree for the address family, is the interface found directly
or else what does the tree find, is there memory, and does the tree take the entry? -/
structure Adding where
  rnh : Bool
  direct : Bool
  found : Option ℕ
  malloc : Bool
  addroute : Bool
  entry : Rtentry
  deriving DecidableEq, Repr

/-- `rtrequest(RTM_ADD)` -/
def rtrequestAdd (s : State) (a : Adding) (ret : Bool) : Option (State × Except Errno ℕ) :=
  if a.rnh = false then some (s, .error .ESRCH)
  else do
    let r ← ifaIfwithroute s a.direct a.found
    if r.2 = false then some (r.1, .error .ENETUNREACH)
    else some (makeroute r.1 a.entry a.malloc a.addroute ret)

/-! ## Deleting entries -/

/-- The route that the caller of `RTM_DELETE` passes, if there is one, is released. -/
def releaseRet (s : State) : Option ℕ → Option State
  | none => some s
  | some rt => RTFREE s rt

/-- `rtrequest(RTM_DELETE)`, when the caller passes the route `ret` and the tree finds `found`. -/
def rtrequestDelete (s : State) (rnh : Bool) (ret found : Option ℕ) : Option State :=
  if rnh = false then some s
  else do
    let s ← releaseRet s ret
    match found with
    | none => some s
    | some rt => do
      let e ← s.entries rt
      let s := { s.set rt { e with up := false } with
        tree := s.tree.erase rt
        rttrash := s.rttrash + 1 }
      if e.refcnt ≤ 0 then rtfree s rt else some s

/-! ## Redirects -/

/-- What `rtredirect` gets and meets: is the gateway on a net of ours or ourselves, the flags
`RTF_DONE` and `RTF_HOST`, the addresses, what the tree finds, what `RTM_ADD` meets, and does the
caller want the route? -/
structure Redirect where
  reachable : Bool
  own : Bool
  done : Bool
  host : Bool
  gateway : Sockaddr
  src : Sockaddr
  found : Option ℕ
  adding : Adding
  rtp : Bool
  deriving DecidableEq, Repr

/-- The mask of a wildcard entry. -/
def Rtentry.wild (e : Rtentry) : Bool := e.mask.any fun m => m.length < 2

def errorOf : Except Errno ℕ → Option Errno
  | .error err => some err
  | .ok _ => none

/-- `rtredirect` between the lookup and `done`, for the entry `e` that was found. -/
def redirect (s : State) (r : Redirect) (rt : ℕ) (e : Rtentry) : Option (State × Option Errno) :=
  if r.done = false ∧ e.gateway.take r.src.length ≠ r.src then some (s, some .EINVAL)
  else if r.own then some (s, some .EHOSTUNREACH)
  else if e.wild ∨ (e.gatewayed ∧ e.host = false ∧ r.host) then do
    let a ← rtrequestAdd s r.adding false
    some (a.1, errorOf a.2)
  else if e.gatewayed then
    if r.gateway.length ≤ e.gateway.length then
      some (s.set rt { e with gateway := r.gateway ++ e.gateway.drop r.gateway.length }, none)
    else some (s, some .ENOSPC)
  else some (s, some .EHOSTUNREACH)

/-- `rtredirect`: the table, and the route that the caller gets. -/
def rtredirect (s : State) (r : Redirect) : Option (State × Option ℕ) :=
  if r.reachable = false then some (s, none)
  else do
    let l ← rtalloc1 s false r.found true true
    match l with
    | (s, none) =>
      if r.own then some (s, none)
      else do
        let a ← rtrequestAdd s r.adding false
        some (a.1, none)
    | (s, some rt) => do
      let e ← s.entries rt
      let d ← redirect s r rt e
      if r.rtp ∧ d.2 = none then some (d.1, some rt)
      else do
        let s ← rtfree d.1 rt
        some (s, none)

/-! ## Calls -/

/-- A call, with the routes that the caller passes and what the call meets. -/
inductive Call where
  | rtalloc (ro found : Option ℕ) (malloc addroute : Bool)
  | rtalloc1 (report : Bool) (found : Option ℕ) (malloc addroute : Bool)
  | rtfree (rt : ℕ)
  | RTFREE (rt : ℕ)
  | rtredirect (r : Redirect)
  | add (a : Adding) (ret : Bool)
  | delete (rnh : Bool) (ret found : Option ℕ)
  | resolve (rnh : Bool) (ret : Option ℕ) (malloc addroute : Bool)
  deriving DecidableEq, Repr

/-- The caller holds other references after the call. -/
def State.holding (s : State) (held : List ℕ) : State := { s with held := held }

/-- The entry that was made, if there is one. -/
def newEntry : Except Errno ℕ → List ℕ
  | .error _ => []
  | .ok rt => [rt]

/-- The references after `RTM_DELETE`. -/
def afterDelete (rnh : Bool) (ret : Option ℕ) (held : List ℕ) : List ℕ :=
  match ret with
  | none => held
  | some rt => if rnh then held.erase rt else held

/-- One call, and the references that it hands out and takes back. -/
def step (s : State) : Call → Option State
  | .rtalloc ro found malloc addroute => do
    let r ← Route.rtalloc s ro found malloc addroute
    -- what was in the route is no longer known to its holder
    let held := match ro with
      | none => s.held
      | some rt => s.held.erase rt
    some (r.1.holding (r.2.toList ++ held))
  | .rtalloc1 report found malloc addroute => do
    let r ← Route.rtalloc1 s report found malloc addroute
    some (r.1.holding (r.2.toList ++ s.held))
  | .rtfree rt => do
    let t ← Route.rtfree s rt
    some (t.holding (s.held.erase rt))
  | .RTFREE rt => do
    let t ← Route.RTFREE s rt
    some (t.holding (s.held.erase rt))
  | .rtredirect r => do
    let l ← Route.rtredirect s r
    some (l.1.holding (l.2.toList ++ s.held))
  | .add a ret => do
    let r ← rtrequestAdd s a ret
    some (r.1.holding ((if ret then newEntry r.2 else []) ++ s.held))
  | .delete rnh ret found => do
    let t ← rtrequestDelete s rnh ret found
    some (t.holding (afterDelete rnh ret s.held))
  | .resolve rnh ret malloc addroute => do
    let r ← Route.resolve s rnh ret malloc addroute
    some (r.1.holding (newEntry r.2 ++ s.held))

end Route
