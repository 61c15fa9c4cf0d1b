import Cradle.Lib.Transition
import Mathlib.Data.List.Nodup
import Mathlib.Data.List.Perm.Basic
import Mathlib.Logic.Function.Basic

/-!
# The ports of contained processes

A contained process listens on a port of its own.  The port is taken by the constructor of
the client that starts the process, and given back by its destructor.  The clients are
either handed out or kept in a pool.

The constructor takes the port before it starts the process.  If it does not get to talk
to the process it throws, and there is no object whose destructor would give the port
back.
-/

namespace Cradle.Rpclib

/-! ## The owner of the ports -/

def firstNumber : ℕ := 49152

def rangeSize : ℕ := 256

/-- `ephemeral_port_owner`; `inUse` has the numbers relative to the first one. -/
structure EphemeralPortOwner where
  nextNumber : ℕ := firstNumber
  inUse : ℕ → Bool := fun _ => false
  nextNumber_range : firstNumber ≤ nextNumber ∧ nextNumber < firstNumber + rangeSize := by decide

/-- What the constructor of a client and the owner throw. -/
inductive ClientError
  | lengthError (what : String)
  | outOfRange (what : String)
  | logicError (what : String)
  | runtimeError (what : String)
  | remoteError (what msg : String)
  /-- The process cannot be started. -/
  | processError
  deriving DecidableEq, Repr

namespace EphemeralPortOwner

def increase (n : ℕ) : ℕ := if n + 1 = firstNumber + rangeSize then firstNumber else n + 1

theorem increase_range {n : ℕ} (h : firstNumber ≤ n ∧ n < firstNumber + rangeSize) :
    firstNumber ≤ increase n ∧ increase n < firstNumber + rangeSize := by
  rw [increase]
  split
  · decide
  · omega

/-- The loop of `find_unused_number` from the number `n` on. -/
def findUnusedFrom (o : EphemeralPortOwner) : ℕ → ℕ → Except ClientError ℕ
  | 0, _ => .error (.lengthError "no unused emphemeral port")
  | fuel + 1, n =>
      if o.inUse (n - firstNumber) = false then .ok n
      else if increase n = o.nextNumber then .error (.lengthError "no unused emphemeral port")
      else findUnusedFrom o fuel (increase n)

/-- The loop comes back to where it has started after `rangeSize` rounds at most. -/
def findUnusedNumber (o : EphemeralPortOwner) : Except ClientError ℕ :=
  o.findUnusedFrom rangeSize o.nextNumber

/-- The number that the loop looks at in the given round. -/
def numberAt (o : EphemeralPortOwner) (round : ℕ) : ℕ :=
  firstNumber + (o.nextNumber - firstNumber + round) % rangeSize

variable {o : EphemeralPortOwner}

theorem numberAt_zero : o.numberAt 0 = o.nextNumber := by
  have := o.nextNumber_range
  simp only [numberAt, firstNumber, rangeSize] at *
  omega

theorem increase_numberAt (round : ℕ) : increase (o.numberAt round) = o.numberAt (round + 1) := by
  rw [increase]
  split
  · simp only [numberAt, firstNumber, rangeSize] at *
    omega
  · simp only [numberAt, firstNumber, rangeSize] at *
    omega

theorem numberAt_eq_nextNumber {round : ℕ} (h : round < rangeSize) :
    o.numberAt (round + 1) = o.nextNumber ↔ round + 1 = rangeSize := by
  have := o.nextNumber_range
  simp only [numberAt, firstNumber, rangeSize] at *
  omega

/-- Every number has its turn. -/
theorem exists_numberAt {n : ℕ} (h : firstNumber ≤ n ∧ n < firstNumber + rangeSize) :
    ∃ round < rangeSize, o.numberAt round = n := by
  have := o.nextNumber_range
  refine ⟨(n + rangeSize - o.nextNumber) % rangeSize, Nat.mod_lt _ (by decide), ?_⟩
  simp only [numberAt, firstNumber, rangeSize] at *
  omega

/-- The number of a port that is in use. -/
def InUse (o : EphemeralPortOwner) (n : ℕ) : Prop :=
  (firstNumber ≤ n ∧ n < firstNumber + rangeSize) ∧ o.inUse (n - firstNumber) = true

instance (o : EphemeralPortOwner) (n : ℕ) : Decidable (o.InUse n) :=
  inferInstanceAs (Decidable (_ ∧ _))

/-- A number of the range that is not in use. -/
def Free (o : EphemeralPortOwner) (n : ℕ) : Prop :=
  (firstNumber ≤ n ∧ n < firstNumber + rangeSize) ∧ o.inUse (n - firstNumber) = false

theorem findUnusedFrom_ok {fuel n m : ℕ} (hn : firstNumber ≤ n ∧ n < firstNumber + rangeSize)
    (h : o.findUnusedFrom fuel n = .ok m) : o.Free m := by
  induction fuel generalizing n with
  | zero => simp [findUnusedFrom] at h
  | succ fuel ih =>
      rw [findUnusedFrom] at h
      split at h
      case isTrue hfree =>
          obtain rfl := Except.ok.inj h
          exact ⟨hn, hfree⟩
      case isFalse =>
          split at h
          · simp at h
          · exact ih (increase_range hn) h

/-- When the loop gives up, all rounds from here on have found a number in use. -/
theorem findUnusedFrom_error {fuel round : ℕ} {e : ClientError} (hsum : round + fuel = rangeSize)
    (h : o.findUnusedFrom fuel (o.numberAt round) = .error e) :
    ∀ i, round ≤ i → i < rangeSize → o.inUse (o.numberAt i - firstNumber) = true := by
  induction fuel generalizing round with
  | zero =>
      intro i hi hlt
      omega
  | succ fuel ih =>
      intro i hi hlt
      rw [findUnusedFrom, increase_numberAt] at h
      split at h
      · simp at h
      · rename_i hused
        rcases Nat.eq_or_lt_of_le hi with rfl | hi
        · simpa using hused
        · have hnot : ¬ o.numberAt (round + 1) = o.nextNumber := by
            rw [numberAt_eq_nextNumber (by omega)]
            omega
          rw [if_neg hnot] at h
          exact ih (by omega) h i hi hlt

/-- `alloc_port`. -/
def allocPort (o : EphemeralPortOwner) : Except ClientError (ℕ × EphemeralPortOwner) :=
  match h : o.findUnusedNumber with
  | .error e => .error e
  | .ok n => .ok (n,
      { nextNumber := increase n
        inUse := Function.update o.inUse (n - firstNumber) true
        nextNumber_range := increase_range (findUnusedFrom_ok o.nextNumber_range h).1 })

/-- `free_port`. -/
def freePort (o : EphemeralPortOwner) (n : ℕ) : Except ClientError EphemeralPortOwner :=
  if n < firstNumber ∨ firstNumber + rangeSize ≤ n then
    .error (.outOfRange ("bad port #" ++ toString n))
  else if o.inUse (n - firstNumber) = false then
    .error (.logicError ("port #" ++ toString n ++ " not in use"))
  else .ok { o with inUse := Function.update o.inUse (n - firstNumber) false }

theorem free_iff {n : ℕ} : o.Free n
    ↔ (firstNumber ≤ n ∧ n < firstNumber + rangeSize) ∧ ¬ o.InUse n := by
  rw [Free, InUse]
  constructor
  · rintro ⟨hrange, hfree⟩
    exact ⟨hrange, fun h => by simp [h.2] at hfree⟩
  · rintro ⟨hrange, hnot⟩
    exact ⟨hrange, by simpa [hrange] using hnot⟩

/-- A port can be had exactly if one is free. -/
theorem allocPort_error {e : ClientError} (h : o.allocPort = .error e) (n : ℕ) : ¬ o.Free n := by
  rintro ⟨hrange, hfree⟩
  have herror : o.findUnusedNumber = .error e := by
    rw [allocPort] at h
    split at h
    · rename_i e' he
      rw [he, Except.error.inj h]
    · simp at h
  rw [findUnusedNumber, ← numberAt_zero] at herror
  obtain ⟨round, hround, rfl⟩ := exists_numberAt (o := o) hrange
  have hused := findUnusedFrom_error (Nat.zero_add _) herror round (Nat.zero_le _) hround
  simp [hused] at hfree

/-- The port that is had was free, and is in use now. -/
theorem allocPort_ok {n : ℕ} {o' : EphemeralPortOwner} (h : o.allocPort = .ok (n, o')) :
    o.Free n ∧ ∀ m, o'.InUse m ↔ m = n ∨ o.InUse m := by
  rw [allocPort] at h
  split at h
  · simp at h
  · rename_i k hk
    obtain ⟨rfl, rfl⟩ := Prod.mk.inj (Except.ok.inj h)
    have hfree := findUnusedFrom_ok o.nextNumber_range hk
    refine ⟨hfree, fun m => ?_⟩
    have hrange := hfree.1
    simp only [InUse, Function.update_apply]
    by_cases hm : m = k
    · subst hm
      simpa using hrange
    · constructor
      · rintro ⟨hmrange, hused⟩
        rw [if_neg (by omega)] at hused
        exact .inr ⟨hmrange, hused⟩
      · rintro (hmk | ⟨hmrange, hused⟩)
        · exact absurd hmk hm
        · rw [if_neg (by omega)]
          exact ⟨hmrange, hused⟩

/-- A port in use can be given back. -/
theorem freePort_of_inUse {n : ℕ} (h : o.InUse n) :
    ∃ o', o.freePort n = .ok o' ∧ ∀ m, o'.InUse m ↔ m ≠ n ∧ o.InUse m := by
  obtain ⟨hrange, hused⟩ := h
  refine ⟨{ o with inUse := Function.update o.inUse (n - firstNumber) false }, ?_, fun m => ?_⟩
  · rw [freePort, if_neg (by omega), if_neg (by simp [hused])]
  · simp only [InUse, Function.update_apply]
    by_cases hm : m = n
    · subst hm
      simp
    · constructor
      · rintro ⟨hmrange, hmused⟩
        rw [if_neg (by omega)] at hmused
        exact ⟨hm, hmrange, hmused⟩
      · rintro ⟨-, hmrange, hmused⟩
        rw [if_neg (by omega)]
        exact ⟨hmrange, hmused⟩

end EphemeralPortOwner

/-! ## Starting a server -/

def rpclibProtocol : String := "2"

/-- What comes back when a client pings its port. -/
inductive Ping
  | noServer
  | pong (protocol : String)
  deriving DecidableEq, Repr

/-- `server_is_running`. -/
def serverIsRunning : Ping → Except ClientError Bool
  | .noServer => .ok false
  | .pong protocol =>
      if protocol ≠ rpclibProtocol then
        .error (.remoteError "rpclib protocol mismatch"
          ("rpclib server has " ++ protocol ++ ", client has " ++ rpclibProtocol))
      else .ok true

/-- `if (server_is_running()) return;`, with what comes after it. -/
def unlessRunning (ping : Ping) (rest : Except ClientError Unit) : Except ClientError Unit := do
  if ← serverIsRunning ping then return
  rest

/-- `wait_until_server_running`, with the pings that are sent until the time is up. -/
def waitUntilServerRunning (ping : Ping) : List Ping → Except ClientError Unit
  | [] => unlessRunning ping (throw (.remoteError "could not start rpclib_server" "timeout"))
  | next :: pings => unlessRunning ping (waitUntilServerRunning next pings)

/-- What a client meets with when it is made: the pings of `ensure_server`, of
`start_server` and of `wait_until_server_running`, and whether the process is started. -/
structure Startup where
  expectServer : Bool := false
  ensurePing : Ping := .noServer
  startPing : Ping := .noServer
  spawns : Bool := true
  waitPing : Ping := .noServer
  waitPings : List Ping := []
  deriving DecidableEq, Repr

namespace Startup

def startServer (u : Startup) : Except ClientError Unit :=
  unlessRunning u.startPing (
    if u.spawns then waitUntilServerRunning u.waitPing u.waitPings else throw .processError)

def ensureServer (u : Startup) (port : ℕ) : Except ClientError Unit :=
  unlessRunning u.ensurePing (
    if u.expectServer then throw (.runtimeError ("No server on port " ++ toString port))
    else u.startServer)

/-- The first answer comes from a server with the protocol of the client. -/
def Answered (pings : List Ping) : Prop :=
  ∃ silent rest, pings = silent ++ .pong rpclibProtocol :: rest ∧ ∀ p ∈ silent, p = .noServer

/-- There is a server already, or one is started and answers in time; it has the protocol of
the client. -/
def Succeeds (u : Startup) : Prop :=
  u.ensurePing = .pong rpclibProtocol ∨
    (u.ensurePing = .noServer ∧ u.expectServer = false ∧
      (u.startPing = .pong rpclibProtocol ∨
        (u.startPing = .noServer ∧ u.spawns = true ∧ Answered (u.waitPing :: u.waitPings))))

theorem unlessRunning_ok {p : Ping} {rest : Except ClientError Unit} :
    unlessRunning p rest = .ok () ↔ p = .pong rpclibProtocol ∨ (p = .noServer ∧ rest = .ok ()) := by
  cases p with
  | noServer =>
      have hrest : unlessRunning .noServer rest = rest := rfl
      simp [hrest]
  | pong protocol =>
      by_cases h : protocol = rpclibProtocol
      · subst h
        exact iff_of_true rfl (.inl rfl)
      · have hmismatch : ∃ e, unlessRunning (.pong protocol) rest = .error e := by
          rw [unlessRunning, serverIsRunning, if_pos h]
          exact ⟨_, rfl⟩
        obtain ⟨e, he⟩ := hmismatch
        simp [he, h]

theorem answered_cons {p : Ping} {ps : List Ping} : Answered (p :: ps)
    ↔ p = .pong rpclibProtocol ∨ (p = .noServer ∧ Answered ps) := by
  constructor
  · rintro ⟨silent, rest, heq, hsilent⟩
    cases silent with
    | nil => exact .inl (List.cons.inj heq).1
    | cons q silent =>
        obtain ⟨rfl, rfl⟩ := List.cons.inj heq
        obtain ⟨hp, hsilent⟩ := List.forall_mem_cons.mp hsilent
        exact .inr ⟨hp, silent, rest, rfl, hsilent⟩
  · rintro (rfl | ⟨rfl, silent, rest, rfl, hsilent⟩)
    · exact ⟨[], ps, rfl, by simp⟩
    · exact ⟨.noServer :: silent, rest, rfl, by simpa using hsilent⟩

theorem not_answered_nil : ¬ Answered [] := by
  rintro ⟨silent, rest, heq, -⟩
  simp at heq

theorem waitUntilServerRunning_ok {p : Ping} {ps : List Ping} :
    waitUntilServerRunning p ps = .ok () ↔ Answered (p :: ps) := by
  induction ps generalizing p with
  | nil =>
      rw [waitUntilServerRunning, unlessRunning_ok, answered_cons]
      simp [not_answered_nil, throw, throwThe, MonadExceptOf.throw]
  | cons q qs ih => rw [waitUntilServerRunning, unlessRunning_ok, answered_cons, ih]

theorem startServer_ok {u : Startup} : u.startServer = .ok ()
    ↔ u.startPing = .pong rpclibProtocol ∨
      (u.startPing = .noServer ∧ u.spawns = true ∧ Answered (u.waitPing :: u.waitPings)) := by
  rw [startServer, unlessRunning_ok, ← waitUntilServerRunning_ok]
  by_cases h : u.spawns = true
  · simp [h]
  · simp [h, throw, throwThe, MonadExceptOf.throw]

theorem ensureServer_ok {u : Startup} (port : ℕ) : u.ensureServer port = .ok () ↔ u.Succeeds := by
  rw [ensureServer, unlessRunning_ok, Succeeds, ← startServer_ok]
  by_cases h : u.expectServer = true
  · simp [h, throw, throwThe, MonadExceptOf.throw]
  · simp [h]

end Startup

/-! ## The clients and their pool -/

/-- An `rpclib_client` that is alive. -/
structure RpclibClient where
  port : ℕ
  deriving DecidableEq, Repr

/-- The constructor.  When the body throws, the destructor is not run. -/
def makeClient (o : EphemeralPortOwner) (u : Startup) :
    Except ClientError RpclibClient × EphemeralPortOwner :=
  match o.allocPort with
  | .error e => (.error e, o)
  | .ok (port, o) =>
      match u.ensureServer port with
      | .error e => (.error e, o)
      | .ok () => (.ok ⟨port⟩, o)

/-- The destructor, after `stop_server`; an exception is logged. -/
def destroyClient (o : EphemeralPortOwner) (c : RpclibClient) : EphemeralPortOwner :=
  match o.freePort c.port with
  | .error _ => o
  | .ok o => o

/-- `contained_proxy_pool`, with the clients that it has handed out. -/
structure ContainedProxyPool where
  portOwner : EphemeralPortOwner := {}
  availableProxies : List RpclibClient := []
  handedOut : List RpclibClient := []

inductive PoolCall
  | alloc (u : Startup)
  | free (proxy : RpclibClient) (succeeded : Bool)
  deriving DecidableEq, Repr

namespace ContainedProxyPool

/-- `alloc_proxy`. -/
def allocProxy (p : ContainedProxyPool) (u : Startup) :
    Except ClientError RpclibClient × ContainedProxyPool :=
  match p.availableProxies with
  | c :: cs => (.ok c, { p with availableProxies := cs, handedOut := c :: p.handedOut })
  | [] =>
      match makeClient p.portOwner u with
      | (.error e, o) => (.error e, { p with portOwner := o })
      | (.ok c, o) => (.ok c, { p with portOwner := o, handedOut := c :: p.handedOut })

/-- `free_proxy`. -/
def freeProxy (p : ContainedProxyPool) (c : RpclibClient) (succeeded : Bool) :
    ContainedProxyPool :=
  let p := { p with handedOut := p.handedOut.erase c }
  if succeeded then { p with availableProxies := p.availableProxies ++ [c] }
  else { p with portOwner := destroyClient p.portOwner c }

/-- A call, also one that throws; what is freed has been handed out. -/
def step (p : ContainedProxyPool) : PoolCall → Option ContainedProxyPool
  | .alloc u => some (p.allocProxy u).2
  | .free c succeeded => if c ∈ p.handedOut then some (p.freeProxy c succeeded) else none

def alive (p : ContainedProxyPool) : List RpclibClient := p.handedOut ++ p.availableProxies

/-- The ports in use are those of the clients that are alive, each of which has one of its
own. -/
structure Accounted (p : ContainedProxyPool) : Prop where
  inUse : ∀ n, p.portOwner.InUse n ↔ n ∈ p.alive.map RpclibClient.port
  distinct : (p.alive.map RpclibClient.port).Nodup

/-- With no client in the pool and a free port, the server is there in the end. -/
def ServerStarts (p : ContainedProxyPool) : PoolCall → Prop
  | .alloc u => p.availableProxies = [] → (∃ n, p.portOwner.Free n) → u.Succeeds
  | .free _ _ => True

variable {p p' : ContainedProxyPool}

/-- The clients only move. -/
theorem Accounted.of_perm (h : p.Accounted) (howner : p'.portOwner = p.portOwner)
    (hperm : p'.alive.Perm p.alive) : p'.Accounted := by
  have hports := hperm.map RpclibClient.port
  constructor
  · intro n
    rw [howner, h.inUse, hports.mem_iff]
  · exact hports.nodup_iff.mpr h.distinct

/-- What `alloc_proxy` does: it takes a client from the pool, makes one, finds no port, or
keeps the port of a client that could not be made. -/
theorem allocProxy_cases (p : ContainedProxyPool) (u : Startup) :
    (∃ c cs, p.availableProxies = c :: cs
      ∧ (p.allocProxy u).2 = { p with availableProxies := cs, handedOut := c :: p.handedOut })
    ∨ (p.availableProxies = [] ∧ (∀ n, ¬ p.portOwner.Free n) ∧ (p.allocProxy u).2 = p)
    ∨ ∃ n o, p.availableProxies = [] ∧ p.portOwner.allocPort = .ok (n, o) ∧
      ((u.Succeeds
          ∧ (p.allocProxy u).2 = { p with portOwner := o, handedOut := ⟨n⟩ :: p.handedOut })
        ∨ (¬ u.Succeeds ∧ (p.allocProxy u).2 = { p with portOwner := o })) := by
  cases havailable : p.availableProxies with
  | cons c cs =>
      refine .inl ⟨c, cs, rfl, ?_⟩
      simp only [allocProxy, havailable]
  | nil =>
      refine .inr ?_
      cases hport : p.portOwner.allocPort with
      | error e =>
          refine .inl ⟨rfl, EphemeralPortOwner.allocPort_error hport, ?_⟩
          simp only [allocProxy, makeClient, havailable, hport]
          rw [← havailable]
      | ok res =>
          obtain ⟨n, o⟩ := res
          refine .inr ⟨n, o, rfl, rfl, ?_⟩
          cases hserver : u.ensureServer n with
          | error e =>
              refine .inr ⟨?_, ?_⟩
              · rw [← Startup.ensureServer_ok n, hserver]
                simp
              · simp only [allocProxy, makeClient, havailable, hport, hserver]
          | ok done =>
              refine .inl ⟨(Startup.ensureServer_ok n).mp hserver, ?_⟩
              simp only [allocProxy, makeClient, havailable, hport, hserver]

theorem Accounted.allocProxy (h : p.Accounted) {u : Startup} (hok : p.ServerStarts (.alloc u)) :
    (p.allocProxy u).2.Accounted := by
  obtain ⟨c, cs, havailable, heq⟩ | ⟨-, -, heq⟩ | ⟨n, o, havailable, hport, hmade⟩ :=
    allocProxy_cases p u
  · rw [heq]
    refine h.of_perm rfl ?_
    rw [alive, alive, havailable]
    exact List.perm_middle.symm
  · rwa [heq]
  · obtain ⟨hfree, hinUse⟩ := EphemeralPortOwner.allocPort_ok hport
    obtain ⟨-, heq⟩ | ⟨hfails, -⟩ := hmade
    · rw [heq]
      constructor
      · intro m
        rw [hinUse, h.inUse]
        simp [alive]
      · have hnew : n ∉ p.alive.map RpclibClient.port := by
          rw [← h.inUse]
          exact (EphemeralPortOwner.free_iff.mp hfree).2
        exact List.nodup_cons.mpr ⟨hnew, h.distinct⟩
    · exact absurd (hok havailable ⟨n, hfree⟩) hfails

/-- A client that is destroyed gives its port back. -/
theorem Accounted.destroy (h : p.Accounted) {c : RpclibClient}
    (hperm : p.alive.Perm (c :: p'.alive))
    (howner : p'.portOwner = destroyClient p.portOwner c) : p'.Accounted := by
  have hports := hperm.map RpclibClient.port
  have hdistinct := hports.nodup_iff.mp h.distinct
  rw [List.map_cons, List.nodup_cons] at hdistinct
  have hc : p.portOwner.InUse c.port := by
    rw [h.inUse, hports.mem_iff]
    exact List.mem_cons_self
  obtain ⟨o, hfree, hinUse⟩ := EphemeralPortOwner.freePort_of_inUse hc
  have howner' : p'.portOwner = o := by
    rw [howner, destroyClient, hfree]
  constructor
  · intro n
    rw [howner', hinUse, h.inUse, hports.mem_iff, List.map_cons, List.mem_cons]
    constructor
    · rintro ⟨hne, heq | hmem⟩
      · exact absurd heq hne
      · exact hmem
    · intro hmem
      exact ⟨fun heq => hdistinct.1 (heq ▸ hmem), .inr hmem⟩
  · exact hdistinct.2

theorem Accounted.freeProxy (h : p.Accounted) {c : RpclibClient} (hc : c ∈ p.handedOut)
    (succeeded : Bool) : (p.freeProxy c succeeded).Accounted := by
  have herase : p.handedOut.Perm (c :: p.handedOut.erase c) := List.perm_cons_erase hc
  cases succeeded with
  | true =>
      refine h.of_perm rfl ?_
      calc p.handedOut.erase c ++ (p.availableProxies ++ [c])
        _ = (p.handedOut.erase c ++ p.availableProxies) ++ [c] := (List.append_assoc _ _ _).symm
        List.Perm _ (c :: (p.handedOut.erase c ++ p.availableProxies)) :=
            List.perm_append_singleton c _
        List.Perm _ (p.handedOut ++ p.availableProxies) := herase.symm.append_right _
  | false => exact h.destroy (herase.append_right _) rfl

theorem Accounted.step (h : p.Accounted) {call : PoolCall} (hok : p.ServerStarts call)
    (hstep : p.step call = some p') : p'.Accounted := by
  cases call with
  | alloc u =>
      rw [← Option.some.inj hstep]
      exact h.allocProxy hok
  | free c succeeded =>
      rw [ContainedProxyPool.step] at hstep
      split at hstep
      case isTrue hc =>
          rw [← Option.some.inj hstep]
          exact h.freeProxy hc succeeded
      case isFalse => simp at hstep

/-- A client that could not be made leaves a port behind that nobody has. -/
theorem Accounted.serverStarts (h : p.Accounted) {call : PoolCall}
    (hstep : p.step call = some p') (h' : p'.Accounted) : p.ServerStarts call := by
  cases call with
  | free c succeeded => trivial
  | alloc u =>
      rintro havailable ⟨m, hm⟩
      rw [← Option.some.inj hstep] at h'
      obtain ⟨c, cs, hcs, -⟩ | ⟨-, hnone, -⟩ | ⟨n, o, -, hport, hmade⟩ := allocProxy_cases p u
      · simp [havailable] at hcs
      · exact absurd hm (hnone m)
      · obtain ⟨hfree, hinUse⟩ := EphemeralPortOwner.allocPort_ok hport
        obtain ⟨hsucceeds, -⟩ | ⟨-, heq⟩ := hmade
        · exact hsucceeds
        · rw [heq] at h'
          have hn : n ∈ p.alive.map RpclibClient.port := (h'.inUse n).mp ((hinUse n).mpr (.inl rfl))
          exact absurd ((h.inUse n).mpr hn) (EphemeralPortOwner.free_iff.mp hfree).2

theorem accounted_empty : Accounted {} := by
  constructor
  · simp [EphemeralPortOwner.InUse, alive]
  · exact List.nodup_nil

/-- The ports are accounted for after each call exactly if a server is there whenever a
port has been taken for it. -/
theorem along_accounted_iff (calls : List PoolCall) : Transition.Along step Accounted {} calls
    ↔ Transition.StepsMeet step ServerStarts {} calls := by
  refine Transition.along_iff_stepsMeet (I := Accounted) ?_ ?_ ?_ accounted_empty calls
  · exact fun p h => h
  · exact fun p p' call h hstep hok => h.step hok hstep
  · exact fun p p' call h hstep h' => h.serverStarts hstep h'

/-- A server that is expected, but not there. -/
theorem not_along_accounted : ¬ ∀ calls, Transition.Along step Accounted {} calls := by
  intro h
  have hrun : Accounted (allocProxy {} { expectServer := true }).2 :=
    (h [.alloc { expectServer := true }]).2 _ rfl
  have hinUse := (hrun.inUse 49152).mp (by decide)
  have hnone : (allocProxy {} { expectServer := true }).2.alive = [] := by decide
  simp [hnone] at hinUse

end ContainedProxyPool
end Cradle.Rpclib
