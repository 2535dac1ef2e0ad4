import Switchboard.Server.Iteration

namespace Switchboard

namespace Server

variable {N T H : Type}

/-- The settings, the listeners and the source: what serving clients leaves alone. Tokens are only
taken. -/
def Frame (s s' : Server N T H) : Prop :=
  s'.config = s.config ∧ s'.listeners = s.listeners ∧ s'.source = s.source ∧
    s'.tokenIds = s.tokenIds ∧ s.nextToken ≤ s'.nextToken

theorem Frame.refl (s : Server N T H) : Frame s s := ⟨rfl, rfl, rfl, rfl, Nat.le_refl _⟩

theorem Frame.trans {s s' s'' : Server N T H} (h : Frame s s') (h' : Frame s' s'') :
    Frame s s'' := by
  obtain ⟨config, listeners, source, tokenIds, nextToken⟩ := h
  obtain ⟨config', listeners', source', tokenIds', nextToken'⟩ := h'
  exact ⟨config'.trans config, listeners'.trans listeners, source'.trans source,
    tokenIds'.trans tokenIds, Nat.le_trans nextToken nextToken'⟩

theorem Frame.foldl {α : Type} {f : Server N T H → α → Server N T H}
    (step : ∀ s a, Frame s (f s a)) (as : List α) (s : Server N T H) : Frame s (as.foldl f s) := by
  induction as generalizing s with
  | nil => exact .refl s
  | cons a as ih => exact (step s a).trans (ih (f s a))

variable [Handler H]

theorem nextChunk_frame {s s' : Server N T H} {token : Nat} {chunk : Bytes}
    (h : s.nextChunk token = some (chunk, s')) : Frame s s' := by
  unfold nextChunk at h
  split at h
  · obtain ⟨-, rfl⟩ := Prod.mk.inj (Option.some.inj h)
    exact .refl s
  · split at h
    · obtain ⟨-, rfl⟩ := Prod.mk.inj (Option.some.inj h)
      exact ⟨rfl, rfl, rfl, rfl, Nat.le_refl _⟩
    · cases h

variable [Network N]

theorem closeSession_frame (s : Server N T H) (token : Nat) : Frame s (s.closeSession token) := by
  unfold closeSession
  split
  · exact .refl s
  · exact ⟨rfl, rfl, rfl, rfl, Nat.le_refl _⟩

theorem sendUpTo_frame (token fuel : Nat) (s : Server N T H) :
    Frame s (sendUpTo token fuel s).2 := by
  induction fuel generalizing s with
  | zero => exact .refl s
  | succ fuel ih =>
    rw [sendUpTo]
    split
    next => exact .refl s
    next chunk t hnext =>
      have taken := nextChunk_frame hnext
      split
      · exact taken
      · split
        next => exact taken
        next n network _ =>
          have kept : Frame s ({ t with network }.keepUnsent token (chunk.drop n)) := taken
          dsimp only
          split
          · exact kept
          · exact kept.trans (ih _)

theorem flushSocket_frame (s : Server N T H) (token : Nat) :
    Frame s (s.flushSocket token).2 := by
  unfold flushSocket
  split
  · exact sendUpTo_frame token _ s
  · exact .refl s

theorem service_frame (s : Server N T H) (token : Nat) (readable : Bool) :
    Frame s (s.service token readable) := by
  unfold service
  split
  next => exact .refl s
  next =>
    have received : Frame s (if readable = true then s.readSocket token else (.goesOn, s)).2 := by
      cases readable
      · exact .refl s
      · exact ⟨rfl, rfl, rfl, rfl, Nat.le_refl _⟩
    generalize (if readable = true then s.readSocket token else (.goesOn, s)) = r at received ⊢
    have sent := received.trans (flushSocket_frame r.2 token)
    dsimp only
    split
    · exact sent.trans (closeSession_frame _ token)
    · split
      · exact sent
      · exact sent

theorem openSession_frame (s : Server N T H) (config : ListenerConfig) (token : Nat)
    (peer : Peer) : Frame s (s.openSession config token peer) := by
  unfold openSession
  dsimp only
  split
  · exact ⟨rfl, rfl, rfl, rfl, Nat.le_refl _⟩
  · exact Frame.trans ⟨rfl, rfl, rfl, rfl, Nat.le_refl _⟩ (service_frame _ token true)

theorem openEach_frame (config : ListenerConfig) (peers : List Peer) (s : Server N T H) :
    Frame s (openEach config peers s) := by
  induction peers generalizing s with
  | nil => exact .refl s
  | cons peer peers ih =>
    have taken : Frame s { s with nextToken := s.nextToken + 1 } :=
      ⟨rfl, rfl, rfl, rfl, Nat.le_succ _⟩
    exact (taken.trans (openSession_frame _ config s.nextToken peer)).trans (ih _)

theorem handle_frame (s : Server N T H) (event : Readiness) : Frame s (s.handle event) := by
  unfold handle
  split
  next listener _ =>
    have accepted := openEach_frame listener.config
      (Network.accept s.network listener.token s.nextToken).1
      { s with network := (Network.accept s.network listener.token s.nextToken).2 }
    exact accepted
  next => exact service_frame s _ _

theorem serviceWoken_frame (s : Server N T H) : Frame s s.serviceWoken :=
  Frame.foldl (fun s token => service_frame s token false) _
    { s with hub := { s.hub with delays := s.hub.delays.takeWakes.2 } }

theorem closeIfSilent_frame (s : Server N T H) (token : Nat) : Frame s (s.closeIfSilent token) := by
  unfold closeIfSilent
  split
  · exact closeSession_frame s token
  · exact ⟨rfl, rfl, rfl, rfl, Nat.le_refl _⟩
  · exact .refl s

theorem sweep_frame (s : Server N T H) : Frame s s.sweep := by
  unfold sweep
  split
  · exact .refl s
  · exact Frame.foldl closeIfSilent_frame s.hub.tokens s

/-- A server that has served its clients in a round. -/
def served (s : Server N T H) : Server N T H :=
  let s := s.serviceWoken
  let (events, network) := Network.ready s.network s.config.maxEvents
  (events.foldl handle { s with network }).sweep

theorem served_frame (s : Server N T H) : Frame s s.served := by
  have woken := serviceWoken_frame s
  have handled := Frame.foldl handle_frame
    (Network.ready s.serviceWoken.network s.serviceWoken.config.maxEvents).1
    { s.serviceWoken with
      network := (Network.ready s.serviceWoken.network s.serviceWoken.config.maxEvents).2 }
  exact (woken.trans handled).trans (sweep_frame _)

/-- A round serves its clients, which changes nothing of the listeners, and then does what the
source wants. -/
theorem iterate_eq [ListenerSource T] (s : Server N T H) : s.iterate = s.served.reconcile := rfl

end Server

end Switchboard
