import Switchboard.Handler

namespace Switchboard

namespace Reaction

variable {A B : Type}

/-- The same reaction of a handler of a wider kind. -/
def map (f : A → B) (r : Reaction A) : Reaction B := ⟨f r.handler, r.requests, r.failure⟩

end Reaction

namespace Yield

variable {A B : Type}

/-- The same for a handler of a wider kind. -/
def map (f : A → B) (y : Yield A) : Yield B := ⟨f y.handler, y.packets, y.replies⟩

end Yield

variable {A B : Type} [Handler A] [Handler B]

/-- Handlers of one kind or another. -/
instance : Handler (A ⊕ B) where
  name
    | .inl a => Handler.name a
    | .inr b => Handler.name b
  active
    | .inl a, v => (Handler.active a v).map .inl
    | .inr b, v => (Handler.active b v).map .inr
  read
    | .inl a, v, p => (Handler.read a v p).map .inl
    | .inr b, v, p => (Handler.read b v p).map .inr
  takeBuffered
    | .inl a, v => (Handler.takeBuffered a v).map .inl
    | .inr b, v => (Handler.takeBuffered b v).map .inr
  pending
    | .inl a => Handler.pending a
    | .inr b => Handler.pending b
  close
    | .inl a, v => (Handler.close a v).map .inl
    | .inr b, v => (Handler.close b v).map .inr

end Switchboard
