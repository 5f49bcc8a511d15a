import Mathlib.Data.List.Basic
import Mathlib.Data.List.Induction
import Mathlib.Data.List.Perm.Basic
import Mathlib.Tactic.Common

/-!
What the connection of the ingester holds of the system: an address list, a socket, a context
and a session of the TLS library. Whatever fails, nothing is released twice or while it is not
held. The destructor releases what the last `connect` has left in the fields; a handle that a
later `connect` has overwritten is never released.
-/
namespace HftSystem

/-! ### Handles -/

/-- Handles of several kinds, numbered in the order in which they are obtained. A release of a
handle that is not held is recorded. -/
structure Handles (κ : Type) where
  next : ℕ := 0
  live : List (κ × ℕ) := []
  misused : Bool := false

namespace Handles

variable {κ : Type}

def acquire (w : Handles κ) (k : κ) : Handles κ × ℕ :=
  ({ w with next := w.next + 1, live := (k, w.next) :: w.live }, w.next)

def release [DecidableEq κ] (w : Handles κ) (k : κ) (h : ℕ) : Handles κ :=
  if (k, h) ∈ w.live then { w with live := w.live.erase (k, h) } else { w with misused := true }

/-- Exactly these handles are held, each once, and none has been misused. -/
structure Holding (w : Handles κ) (hs : List (κ × ℕ)) : Prop where
  live : w.live.Perm hs
  below : ∀ e ∈ hs, e.2 < w.next
  unmisused : w.misused = false

variable {w : Handles κ} {hs : List (κ × ℕ)}

theorem Holding.acquire (h : Holding w hs) (k : κ) :
    Holding (w.acquire k).1 ((k, (w.acquire k).2) :: hs) where
  live := h.live.cons _
  below := by
    rw [List.forall_mem_cons]
    exact ⟨Nat.lt_succ_self _, fun e he => Nat.lt_succ_of_lt (h.below e he)⟩
  unmisused := h.unmisused

theorem Holding.release [DecidableEq κ] {k : κ} {n : ℕ} (h : Holding w ((k, n) :: hs)) :
    Holding (w.release k n) hs := by
  have hmem : (k, n) ∈ w.live := h.live.mem_iff.mpr List.mem_cons_self
  rw [Handles.release, if_pos hmem]
  refine ⟨?_, fun e he => h.below e (List.mem_cons_of_mem _ he), h.unmisused⟩
  have herase := h.live.erase (k, n)
  rwa [List.erase_cons_head] at herase

theorem Holding.perm {hs' : List (κ × ℕ)} (h : Holding w hs) (hperm : hs.Perm hs') :
    Holding w hs' :=
  ⟨h.live.trans hperm, fun e he => h.below e (hperm.mem_iff.mpr he), h.unmisused⟩

end Handles

/-! ### The client -/

inductive HandleKind where
  | addrInfo
  | socket
  | sslCtx
  | ssl
deriving DecidableEq

/-- The fields of the class that hold something; a socket of -1 and a null pointer are none. -/
structure TlsFields where
  ssl : Option ℕ := none
  sslCtx : Option ℕ := none
  socketFd : Option ℕ := none

/-- How the calls of one `connect` end. -/
structure ConnectOutcome where
  getaddrinfo : Bool
  socket : Bool
  connect : Bool
  sslCtxNew : Bool
  sslNew : Bool
  sslConnect : Bool

namespace TlsFields

open Handles

/-- `TLSClient::connect` with its result. -/
def connect (c : TlsFields) (o : ConnectOutcome) (w : Handles HandleKind) :
    TlsFields × Handles HandleKind × Bool :=
  if !o.getaddrinfo then (c, w, false)
  else
    let (w, res) := w.acquire .addrInfo
    if !o.socket then ({ c with socketFd := none }, w.release .addrInfo res, false)
    else
      let (w, fd) := w.acquire .socket
      if !o.connect then
        ({ c with socketFd := none }, (w.release .socket fd).release .addrInfo res, false)
      else
        let c := { c with socketFd := some fd }
        let w := w.release .addrInfo res
        if !o.sslCtxNew then ({ c with sslCtx := none }, w, false)
        else
          let (w, ctx) := w.acquire .sslCtx
          let c := { c with sslCtx := some ctx }
          if !o.sslNew then ({ c with ssl := none }, w, false)
          else
            let (w, ssl) := w.acquire .ssl
            ({ c with ssl := some ssl }, w, o.sslConnect)

def releaseField (k : HandleKind) (field : Option ℕ) (w : Handles HandleKind) :
    Handles HandleKind :=
  match field with
  | none => w
  | some h => w.release k h

/-- The destructor. -/
def destroy (c : TlsFields) (w : Handles HandleKind) : Handles HandleKind :=
  releaseField .socket c.socketFd (releaseField .sslCtx c.sslCtx (releaseField .ssl c.ssl w))

/-- Calls of `connect` on a new client, one after the other. -/
def connectAll (os : List ConnectOutcome) : TlsFields × Handles HandleKind :=
  os.foldl (fun s o => ((s.1.connect o s.2).1, (s.1.connect o s.2).2.1)) ({}, {})

/-! ### What is held -/

def held (k : HandleKind) (field : Option ℕ) : List (HandleKind × ℕ) :=
  field.toList.map (fun h => (k, h))

/-- The handles in the fields. -/
def owned (c : TlsFields) : List (HandleKind × ℕ) :=
  held .ssl c.ssl ++ (held .sslCtx c.sslCtx ++ held .socket c.socketFd)

/-- The field that a kind of handle is stored in. -/
def field (c : TlsFields) : HandleKind → Option ℕ
  | .addrInfo => none
  | .socket => c.socketFd
  | .sslCtx => c.sslCtx
  | .ssl => c.ssl

/-- Whether a call sets the field of a kind, and if so, to a handle. -/
def attempt (o : ConnectOutcome) : HandleKind → Option Bool
  | .addrInfo => none
  | .socket => if o.getaddrinfo then some (o.socket && o.connect) else none
  | .sslCtx => if o.getaddrinfo && o.socket && o.connect then some o.sslCtxNew else none
  | .ssl =>
    if o.getaddrinfo && o.socket && o.connect && o.sslCtxNew then some o.sslNew else none

/-- The handles of the fields that a call sets. -/
def overwritten (c : TlsFields) (o : ConnectOutcome) : List (HandleKind × ℕ) :=
  (if (attempt o .ssl).isSome then held .ssl c.ssl else []) ++
    ((if (attempt o .sslCtx).isSome then held .sslCtx c.sslCtx else []) ++
      if (attempt o .socket).isSome then held .socket c.socketFd else [])

theorem connect_holding (c : TlsFields) (o : ConnectOutcome) {w : Handles HandleKind}
    {lost : List (HandleKind × ℕ)} (h : Holding w (c.owned ++ lost)) :
    Holding (c.connect o w).2.1 ((c.connect o w).1.owned ++ (c.overwritten o ++ lost)) := by
  obtain ⟨hinfo, hsocket, hconnect, hctx, hssl, hshake⟩ := o
  unfold connect overwritten attempt
  cases hinfo with
  | false => simpa using h
  | true =>
    have hres := h.acquire .addrInfo
    cases hsocket with
    | false => simpa [owned, held] using hres.release
    | true =>
      have hfd := hres.acquire .socket
      cases hconnect with
      | false => simpa [owned, held] using hfd.release.release
      | true =>
        have hopen := (hfd.perm (List.Perm.swap _ _ _)).release
        cases hctx with
        | false =>
          -- the context that the field held is lost, the session stays in front of the socket
          rw [owned, List.append_assoc] at hopen
          simpa [owned, held] using hopen.perm List.perm_middle.symm
        | true =>
          have hmade := hopen.acquire .sslCtx
          cases hssl with
          | false => simpa [owned, held] using hmade
          | true => simpa [owned, held] using hmade.acquire .ssl

theorem releaseField_holding {k : HandleKind} {field : Option ℕ} {w : Handles HandleKind}
    {hs : List (HandleKind × ℕ)} (h : Holding w (held k field ++ hs)) :
    Holding (releaseField k field w) hs := by
  cases field with
  | none => exact h
  | some n => exact h.release

theorem destroy_holding (c : TlsFields) {w : Handles HandleKind} {lost : List (HandleKind × ℕ)}
    (h : Holding w (c.owned ++ lost)) : Holding (c.destroy w) lost := by
  rw [owned, List.append_assoc, List.append_assoc] at h
  exact releaseField_holding (releaseField_holding (releaseField_holding h))

/-! ### Runs of calls -/

/-- The calls that set the field of a kind, with whether they set it to a handle. -/
def attempts (k : HandleKind) (os : List ConnectOutcome) : List Bool :=
  os.filterMap (fun o => attempt o k)

/-- A field holds a handle if the last call that set it succeeded. -/
theorem field_isSome_connect (c : TlsFields) (o : ConnectOutcome) (w : Handles HandleKind)
    (k : HandleKind) :
    ((c.connect o w).1.field k).isSome = (attempt o k).getD (c.field k).isSome := by
  obtain ⟨hinfo, hsocket, hconnect, hctx, hssl, hshake⟩ := o
  cases hinfo with
  | false => cases k <;> rfl
  | true =>
    cases hsocket with
    | false => cases k <;> rfl
    | true =>
      cases hconnect with
      | false => cases k <;> rfl
      | true =>
        cases hctx with
        | false => cases k <;> rfl
        | true => cases hssl <;> cases k <;> rfl

theorem countP_held (k k' : HandleKind) (field : Option ℕ) :
    (held k' field).countP (fun e => e.1 = k) = if k' = k ∧ field.isSome then 1 else 0 := by
  cases field with
  | none => simp [held]
  | some n =>
    by_cases hk : k' = k
    · simp [held, hk]
    · simp [held, hk]

theorem countP_overwritten (c : TlsFields) (o : ConnectOutcome) (k : HandleKind) :
    (c.overwritten o).countP (fun e => e.1 = k) =
      if (attempt o k).isSome ∧ (c.field k).isSome then 1 else 0 := by
  have hcount : ∀ (p : Bool) (k' : HandleKind) (f : Option ℕ),
      (if p then held k' f else []).countP (fun e => e.1 = k) =
        if k' = k ∧ p ∧ f.isSome then 1 else 0 := by
    intro p k' f
    cases p with
    | false => simp
    | true => simpa using countP_held k k' f
  unfold overwritten
  rw [List.countP_append, List.countP_append, hcount, hcount, hcount]
  cases k <;> simp [field, attempt]

/-- After some calls: the fields hold what the last call that set them obtained, and what earlier
ones obtained is lost. -/
structure Reached (os : List ConnectOutcome) (c : TlsFields) (w : Handles HandleKind) : Prop where
  holding : ∃ lost, Holding w (c.owned ++ lost) ∧
    ∀ k, lost.countP (fun e => e.1 = k) = (attempts k os).dropLast.count true
  field : ∀ k, (c.field k).isSome = ((attempts k os).getLast? == some true)

theorem attempts_concat (k : HandleKind) (os : List ConnectOutcome) (o : ConnectOutcome) :
    attempts k (os ++ [o]) = attempts k os ++ (attempt o k).toList := by
  unfold attempts
  rw [List.filterMap_append]
  cases ho : attempt o k <;> simp [ho]

theorem count_dropLast (bs : List Bool) :
    bs.dropLast.count true + (if bs.getLast? = some true then 1 else 0) = bs.count true := by
  induction bs using List.reverseRecOn with
  | nil => rfl
  | append_singleton bs b ih => cases b <;> simp

theorem Reached.connect {os : List ConnectOutcome} {c : TlsFields} {w : Handles HandleKind}
    (h : Reached os c w) (o : ConnectOutcome) :
    Reached (os ++ [o]) (c.connect o w).1 (c.connect o w).2.1 := by
  obtain ⟨⟨lost, hholding, hlost⟩, hfield⟩ := h
  refine ⟨⟨_, connect_holding c o hholding, ?_⟩, ?_⟩
  · intro k
    have hcount := count_dropLast (attempts k os)
    have hsome := hfield k
    rw [List.countP_append, countP_overwritten, hlost, attempts_concat]
    cases ho : attempt o k with
    | none => simp
    | some b =>
      simp only [hsome, beq_iff_eq, Option.isSome_some, true_and, Option.toList_some,
        List.dropLast_concat]
      omega
  · intro k
    rw [field_isSome_connect, hfield, attempts_concat]
    cases ho : attempt o k with
    | none => simp
    | some b => cases b <;> simp

theorem reached_connectAll (os : List ConnectOutcome) :
    Reached os (connectAll os).1 (connectAll os).2 := by
  induction os using List.reverseRecOn with
  | nil =>
    refine ⟨⟨[], ⟨.refl _, by simp [owned, held, connectAll], rfl⟩, fun _ => rfl⟩, ?_⟩
    intro k
    cases k <;> rfl
  | append_singleton os o ih =>
    rw [connectAll, List.foldl_append]
    exact ih.connect o

/-- After any calls of `connect`, however they end, and the destructor: nothing has been released
twice or while it was not held, and of each kind as many handles are still held as calls before
the last one that set the field obtained. -/
theorem destroy_connectAll (os : List ConnectOutcome) :
    let w := (connectAll os).1.destroy (connectAll os).2
    w.misused = false ∧
      (∀ k, w.live.countP (fun e => e.1 = k) = (attempts k os).dropLast.count true) ∧
      (w.live = [] ↔ ∀ k, ∀ b ∈ (attempts k os).dropLast, b = false) := by
  intro w
  obtain ⟨⟨lost, hholding, hlost⟩, -⟩ := reached_connectAll os
  have hend := destroy_holding _ hholding
  have hcount : ∀ k, w.live.countP (fun e => e.1 = k) = (attempts k os).dropLast.count true :=
    fun k => (hend.live.countP_eq _).trans (hlost k)
  refine ⟨hend.unmisused, hcount, ?_, ?_⟩
  · intro hnone k b hb
    have hzero := hcount k
    rw [hnone, List.countP_nil, eq_comm, List.count_eq_zero] at hzero
    exact Bool.eq_false_iff.mpr (fun htrue => hzero (htrue ▸ hb))
  · intro hfailed
    refine List.eq_nil_iff_forall_not_mem.mpr (fun e he => ?_)
    have hpos : 0 < w.live.countP (fun e' => e'.1 = e.1) :=
      List.countP_pos_iff.mpr ⟨e, he, decide_eq_true rfl⟩
    rw [hcount, List.count_pos_iff] at hpos
    exact Bool.noConfusion (hfailed e.1 true hpos)

end TlsFields

end HftSystem
