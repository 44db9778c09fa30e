import AndrenBoost.Lib.Bytes
import Mathlib.Data.List.TakeDrop
import Mathlib.Tactic.Common

/-!
# The echo server

`co_sockstream` reads and writes a TCP connection once each call: `async_read` gives
the bytes that are there, at the front of a buffer of the size asked for, and
`async_write` tells how many bytes the socket took.  `echo_server` reads, writes what it
has read, and begins anew; it does not look at how much of it was taken.

The socket itself is not part of the library.  A connection is taken to carry bytes in
order, `async_read_some` to give at least one of those that have come and no more than
fit, `async_write_some` to take at least one if there is any, and both to throw at any
time.

## Main definitions

* `asyncRead`, `asyncWrite` — the two calls, by what the socket does.
* `Connection`, `step` — a client and the server, and the bytes between them.
* `WritesAll` — every write of the server takes all it was given.

## Main results

* `echo_iff` — **what comes back is what was sent, in order, less what a write did not
  take**; it is all of it exactly when every write took all.

## References

`async_read` and `async_write` in `src/boost_tcp_udp/co_sockstream.cpp`, and
`echo_server` in `example/test_tcp_server.cpp`.
-/

namespace AndrenBoost.Sockstream

/-! ### The calls -/

/-- `co_sockstream::async_read`, when `async_read_some` stores the bytes `read`, or
throws. -/
def asyncRead (bufsizeMax : ℕ) (read : Option Bytes) : ℤ × Bytes :=
  let bufsizeMax := max 16 bufsizeMax
  let buffer : Bytes := List.replicate bufsizeMax 0
  -- an exception is taken for the end of the connection
  let nread : ℤ := ((read.getD []).length : ℤ)
  let buffer := read.getD [] ++ buffer.drop (read.getD []).length
  if nread > 0 then (nread, buffer)
  else if nread = 0 then (0, [])
  else (-1, [])

/-- `co_sockstream::async_write`, when `async_write_some` takes so many bytes, or throws:
the number goes through an `int`. -/
def asyncWrite : Option ℕ → ℤ
  | none => -1
  | some written => (written : ℤ).bmod (2 ^ 32)

/-- What `async_read_some` may do with a buffer of the given size. -/
def MayRead (size : ℕ) (arrived : Bytes) : Option ℕ → Prop
  | none => True
  | some n => 0 < n ∧ n ≤ size ∧ n ≤ arrived.length

/-- What `async_write_some` may do with a buffer. -/
def MayWrite (buffer : Bytes) : Option ℕ → Prop
  | none => True
  | some n => n ≤ buffer.length ∧ (n = 0 → buffer = [])

instance (size : ℕ) (arrived : Bytes) : DecidablePred (MayRead size arrived)
  | none => inferInstanceAs (Decidable True)
  | some _ => inferInstanceAs (Decidable (_ ∧ _))

instance (buffer : Bytes) : DecidablePred (MayWrite buffer)
  | none => inferInstanceAs (Decidable True)
  | some _ => inferInstanceAs (Decidable (_ ∧ _))

/-! ### The connection -/

/-- Where `echo_server` is. -/
inductive EchoServer
  /-- Before `async_read(1024)`. -/
  | reading
  /-- Before `async_write(data)`. -/
  | writing (data : Bytes)
  /-- It has returned, and the socket is closed. -/
  | ended
  deriving DecidableEq

/-- The bytes it has read and has not tried to write. -/
def EchoServer.held : EchoServer → Bytes
  | .reading => []
  | .writing data => data
  | .ended => []

/-- What `echo_server` does with what `async_read` returned. -/
def echoServer (r : ℤ × Bytes) : EchoServer :=
  if r.1 > 0 then .writing (r.2.take r.1.toNat) else .ended

/-- A client, the server, and the bytes on their way. -/
structure Connection where
  toServer : Bytes
  server : EchoServer
  toClient : Bytes

/-- The connection is accepted. -/
def start : Connection := ⟨[], .reading, []⟩

/-- A call on either side, with what the socket does. -/
inductive Event
  | clientWrites (buffer : Bytes) (written : Option ℕ)
  | serverReads (read : Option ℕ)
  | serverWrites (written : Option ℕ)
  | clientReads (bufsizeMax : ℕ) (read : Option ℕ)

/-- What the client's calls return. -/
inductive Result
  | nwrite (n : ℤ)
  | data (nread : ℤ) (buffer : Bytes)

/-- One call. -/
def step (c : Connection) : Event → Option (Connection × List Result)
  | .clientWrites buffer written =>
      if MayWrite buffer written then
        some ({ c with toServer := c.toServer ++ buffer.take (written.getD 0) },
          [.nwrite (asyncWrite written)])
      else none
  | .serverReads read =>
      if c.server = .reading ∧ MayRead 1024 c.toServer read then
        some ({ c with
          toServer := c.toServer.drop (read.getD 0)
          server := echoServer (asyncRead 1024 (read.map fun n => c.toServer.take n)) }, [])
      else none
  | .serverWrites written =>
      match c.server with
      | .writing data =>
          if MayWrite data written then
            -- the number is printed, and the rest of the data is not tried again
            some ({ c with
              server := .reading
              toClient := c.toClient ++ data.take (written.getD 0) }, [])
          else none
      | _ => none
  | .clientReads bufsizeMax read =>
      if MayRead (max 16 bufsizeMax) c.toClient read then
        let r := asyncRead bufsizeMax (read.map fun n => c.toClient.take n)
        some ({ c with toClient := c.toClient.drop (read.getD 0) }, [.data r.1 r.2])
      else none

/-- The calls, one after another, with all that the client's return. -/
def run (c : Connection) : List Event → Option (Connection × List Result)
  | [] => some (c, [])
  | e :: es => (step c e).bind fun r => (run r.1 es).map fun rest => (rest.1, r.2 ++ rest.2)

/-- The bytes the socket took of what the client wrote. -/
def sent : List Event → Bytes
  | [] => []
  | .clientWrites buffer written :: es => buffer.take (written.getD 0) ++ sent es
  | .serverReads _ :: es => sent es
  | .serverWrites _ :: es => sent es
  | .clientReads _ _ :: es => sent es

/-- The bytes the client has read. -/
def received : List Result → Bytes
  | [] => []
  | .nwrite _ :: rs => received rs
  | .data nread buffer :: rs => buffer.take nread.toNat ++ received rs

/-- Every write of the server takes as many bytes as it has read before, and so does not
throw; `n` is the number it has in hand. -/
def WritesAll : ℕ → List Event → Prop
  | _, [] => True
  | n, .clientWrites _ _ :: es => WritesAll n es
  | _, .serverReads read :: es => WritesAll (read.getD 0) es
  | n, .serverWrites written :: es => written.getD 0 = n ∧ WritesAll 0 es
  | n, .clientReads _ _ :: es => WritesAll n es

/-- The bytes between what the client has read and what it has written. -/
def Connection.between (c : Connection) : Bytes := c.toClient ++ c.server.held ++ c.toServer

/-! ### What a read gives -/

/-- The first `nread` bytes of the buffer are those that were read. -/
theorem take_asyncRead (bufsizeMax : ℕ) (read : Option Bytes) :
    (asyncRead bufsizeMax read).2.take (asyncRead bufsizeMax read).1.toNat = read.getD [] := by
  simp only [asyncRead]
  split_ifs with hpos hzero
  · simp
  · have hnil : read.getD [] = [] := List.length_eq_zero_iff.mp (by omega)
    rw [hnil]
    rfl
  · omega

/-- The server holds what it has read. -/
theorem held_echoServer (bufsizeMax : ℕ) (read : Option Bytes) :
    (echoServer (asyncRead bufsizeMax read)).held = read.getD [] := by
  have htake := take_asyncRead bufsizeMax read
  rw [echoServer]
  split_ifs with hpos
  · exact htake
  · -- no bytes, so the connection has ended for it
    rw [← htake, Int.toNat_of_nonpos (by omega)]
    rfl

theorem getD_map_take (read : Option ℕ) (bytes : Bytes) :
    (read.map fun n => bytes.take n).getD [] = bytes.take (read.getD 0) := by
  cases read <;> simp

/-! ### One call -/

/-- Nothing is lost by a call, except what a write of the server leaves. -/
theorem step_between {c c' : Connection} {e : Event} {rs : List Result}
    (h : step c e = some (c', rs)) :
    (received rs ++ c'.between).Sublist (c.between ++ sent [e]) ∧
      ∀ es, WritesAll c.server.held.length (e :: es) ↔
        received rs ++ c'.between = c.between ++ sent [e] ∧
          WritesAll c'.server.held.length es := by
  cases e with
  | clientWrites buffer written =>
    rw [step] at h
    split_ifs at h
    obtain ⟨rfl, rfl⟩ := Prod.mk.inj (Option.some.inj h)
    have heq : ∀ toServer, Connection.between { c with toServer := c.toServer ++ toServer }
        = c.between ++ toServer := fun toServer => by simp [Connection.between]
    simp only [received, sent, heq, List.nil_append, List.append_nil, WritesAll, true_and]
    exact ⟨List.Sublist.refl _, fun _ => trivial⟩
  | serverReads read =>
    rw [step] at h
    split_ifs at h with hread
    obtain ⟨rfl, rfl⟩ := Prod.mk.inj (Option.some.inj h)
    obtain ⟨hserver, hmay⟩ := hread
    have heq : Connection.between { c with
        toServer := c.toServer.drop (read.getD 0)
        server := echoServer (asyncRead 1024 (read.map fun n => c.toServer.take n)) }
          = c.between := by
      simp only [Connection.between, held_echoServer, getD_map_take, hserver]
      simp [EchoServer.held]
    have hlen : (c.toServer.take (read.getD 0)).length = read.getD 0 := by
      cases read with
      | none => simp
      | some n => simpa using hmay.2.2
    simp only [received, sent, heq, List.nil_append, List.append_nil, WritesAll, true_and,
      held_echoServer, getD_map_take, hlen]
    exact ⟨List.Sublist.refl _, fun _ => trivial⟩
  | serverWrites written =>
    rw [step] at h
    cases hserver : c.server with
    | reading => simp [hserver] at h
    | ended => simp [hserver] at h
    | writing data =>
      simp only [hserver] at h
      split_ifs at h with hmay
      obtain ⟨rfl, rfl⟩ := Prod.mk.inj (Option.some.inj h)
      have hle : written.getD 0 ≤ data.length := by
        cases written with
        | none => simp
        | some n => exact hmay.1
      -- the bytes before and behind those in hand stay
      have heq : ∀ data', c.toClient ++ data' ++ c.toServer = c.toClient ++ data ++ c.toServer
          ↔ data' = data := fun data' => by
        rw [List.append_assoc, List.append_assoc, List.append_right_inj, List.append_left_inj]
      simp only [received, sent, List.nil_append, List.append_nil, WritesAll, Connection.between,
        hserver, EchoServer.held, List.length_nil, heq]
      refine ⟨((List.take_sublist _ _).append_left _).append_right _, fun es => ?_⟩
      rw [List.take_eq_self_iff]
      exact and_congr_left fun _ => ⟨fun heq => heq.ge, fun hge => le_antisymm hle hge⟩
  | clientReads bufsizeMax read =>
    rw [step] at h
    split_ifs at h
    obtain ⟨rfl, rfl⟩ := Prod.mk.inj (Option.some.inj h)
    have heq : c.toClient.take (read.getD 0)
        ++ Connection.between { c with toClient := c.toClient.drop (read.getD 0) } = c.between := by
      simp only [Connection.between, ← List.append_assoc, List.take_append_drop]
    simp only [received, take_asyncRead, getD_map_take, sent, heq, List.append_nil, WritesAll,
      true_and]
    exact ⟨List.Sublist.refl _, fun _ => trivial⟩

/-! ### Runs -/

theorem received_append (rs' : List Result) : ∀ rs : List Result,
    received (rs ++ rs') = received rs ++ received rs' := by
  intro rs
  induction rs with
  | nil => rfl
  | cons r rs ih =>
    cases r with
    | nwrite n => exact ih
    | data nread buffer => rw [List.cons_append, received, received, ih, List.append_assoc]

theorem sent_cons (e : Event) (es : List Event) : sent (e :: es) = sent [e] ++ sent es := by
  cases e <;> simp [sent]

/-- What is left out of what is left out. -/
theorem eq_iff_of_sublist {A : Type*} {l l' l'' : List A} (h : l.Sublist l')
    (h' : l'.Sublist l'') : l = l'' ↔ l' = l'' ∧ l = l' := by
  constructor
  · rintro rfl
    have heq := h.antisymm h'
    exact ⟨heq.symm, heq⟩
  · rintro ⟨rfl, rfl⟩
    rfl

/-- A run from any moment of a connection. -/
theorem run_between : ∀ {es : List Event} {c c' : Connection} {rs : List Result},
    run c es = some (c', rs) →
      (received rs ++ c'.between).Sublist (c.between ++ sent es) ∧
        (received rs ++ c'.between = c.between ++ sent es ↔ WritesAll c.server.held.length es) := by
  intro es
  induction es with
  | nil =>
    intro c c' rs hrun
    obtain ⟨rfl, rfl⟩ := Prod.mk.inj (Option.some.inj hrun)
    simp [received, sent, WritesAll]
  | cons e es ih =>
    intro c c' rs hrun
    obtain ⟨⟨c₁, rs₁⟩, hstep, hrest⟩ := Option.bind_eq_some_iff.mp hrun
    obtain ⟨⟨c₂, rs₂⟩, hrun₂, heq⟩ := Option.map_eq_some_iff.mp hrest
    obtain ⟨rfl, rfl⟩ := Prod.mk.inj heq
    obtain ⟨hsub, hall⟩ := step_between hstep
    obtain ⟨hsub₂, hall₂⟩ := ih hrun₂
    -- what the rest of the run loses, and what the first call loses
    have hrest : (received (rs₁ ++ rs₂) ++ c₂.between).Sublist
        (received rs₁ ++ c₁.between ++ sent es) := by
      rw [received_append, List.append_assoc, List.append_assoc]
      exact hsub₂.append_left _
    have hfirst : (received rs₁ ++ c₁.between ++ sent es).Sublist
        (c.between ++ sent (e :: es)) := by
      rw [sent_cons, ← List.append_assoc]
      exact hsub.append_right _
    refine ⟨hrest.trans hfirst, (eq_iff_of_sublist hrest hfirst).trans ?_⟩
    rw [hall, ← hall₂, sent_cons, ← List.append_assoc, List.append_left_inj, received_append,
      List.append_assoc, List.append_assoc, List.append_right_inj]

/-- **What comes back is what was sent, in order, less what a write did not take.**  In
every run of a client with the server, whatever the socket does, what the client has
read, followed by the bytes that are on their way and those the server has in hand, are
bytes that were sent, in their order and none of them twice; they are all of them
exactly when every write of the server took all it was given. -/
theorem echo_iff {es : List Event} {c : Connection} {rs : List Result}
    (hrun : run start es = some (c, rs)) :
    (received rs ++ c.between).Sublist (sent es) ∧
      (received rs ++ c.between = sent es ↔ WritesAll 0 es) := run_between hrun

/-- The client of the example writes its greeting and reads once, but the socket of the
server took four bytes of it: the rest does not come. -/
theorem echo_iff_hello : ∃ c rs,
    run start [.clientWrites (ascii "hello world!!") (some 13), .serverReads (some 13),
      .serverWrites (some 4), .clientReads 1024 (some 4)] = some (c, rs) ∧
      (received rs ++ c.between).Sublist (ascii "hello world!!") ∧
      received rs ++ c.between ≠ ascii "hello world!!" := by
  obtain ⟨⟨c, rs⟩, hrun⟩ := Option.isSome_iff_exists.mp
    (show (run start [.clientWrites (ascii "hello world!!") (some 13), .serverReads (some 13),
      .serverWrites (some 4), .clientReads 1024 (some 4)]).isSome by decide +kernel)
  obtain ⟨hsub, hiff⟩ := echo_iff hrun
  refine ⟨c, rs, hrun, hsub, fun heq => ?_⟩
  have hall := hiff.mp heq
  simp [WritesAll] at hall

end AndrenBoost.Sockstream
