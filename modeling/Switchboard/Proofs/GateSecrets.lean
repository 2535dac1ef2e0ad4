import Switchboard.Proofs.Credentials

namespace Switchboard

namespace Text

/-- The text has a blank as its last character. -/
def endsBlank (s : String) : Bool := s.toList.getLast?.any isBlank

theorem dropWhile_of_solid {cs : List Char} (h : ∀ c, cs.head? = some c → isBlank c = false) :
    cs.dropWhile isBlank = cs := by
  cases cs with
  | nil => rfl
  | cons c cs => exact List.dropWhile_cons_of_neg (by simp [h c rfl])

theorem trimChars_of_solid {cs : List Char} (hfirst : ∀ c, cs.head? = some c → isBlank c = false)
    (hlast : ∀ c, cs.getLast? = some c → isBlank c = false) : trimChars cs = cs := by
  have back : cs.reverse.dropWhile isBlank = cs.reverse :=
    dropWhile_of_solid fun c hc => hlast c (by rwa [← List.head?_reverse])
  rw [trimChars, dropWhile_of_solid hfirst, back, List.reverse_reverse]

/-- Whatever is left of a text without the blanks around it does not end in one. -/
theorem endsBlank_trim (s : String) : endsBlank (trim s) = false := by
  have solid := List.head?_dropWhile_not isBlank (s.toList.dropWhile isBlank).reverse
  rw [endsBlank, trim, String.toList_ofList, trimChars, List.getLast?_reverse]
  cases hc : ((s.toList.dropWhile isBlank).reverse.dropWhile isBlank).head? with
  | none => rfl
  | some c =>
    rw [hc] at solid
    exact solid

end Text

namespace TokenGate

variable {secret user : String} {payload : Payload}

/-- A colon stands in front of the secret, so blanks at the end can only be its own. -/
theorem endsBlank_credentials (user secret : String) :
    Text.endsBlank (user ++ ":" ++ secret) = Text.endsBlank secret := by
  simp only [Text.endsBlank, String.toList_append, List.getLast?_append]
  cases secret.toList.getLast? with
  | some c => rfl
  | none => rfl

theorem trim_credentials (hname : user ≠ "")
    (hfront : ∀ c, user.toList.head? = some c → Text.isBlank c = false)
    (hend : Text.endsBlank secret = false) :
    Text.trim (user ++ ":" ++ secret) = user ++ ":" ++ secret := by
  have hne : user.toList ≠ [] := by simpa using hname
  have whole : Text.trimChars (user ++ ":" ++ secret).toList = (user ++ ":" ++ secret).toList := by
    refine Text.trimChars_of_solid (fun c hc => hfront c ?_) (fun c hc => ?_)
    · rw [String.toList_append, String.toList_append, List.append_assoc,
        List.head?_append_of_ne_nil _ hne] at hc
      exact hc
    · rw [← endsBlank_credentials user, Text.endsBlank, hc] at hend
      exact hend
  rw [Text.trim, whole, String.ofList_toList]

/-- Credentials with such a secret cannot be shown: what a gate compares with it has lost its
blanks. -/
theorem no_credentials (hend : Text.endsBlank secret = true) :
    ¬ Credentials secret user payload := by
  rintro ⟨t, _, htrim, _, _⟩
  have solid := Text.endsBlank_trim t
  rw [htrim, endsBlank_credentials, hend] at solid
  cases solid

theorem user?_of_given (hname : user ≠ "") (hcolon : ':' ∉ user.toList)
    (hfront : ∀ c, user.toList.head? = some c → Text.isBlank c = false)
    (hend : Text.endsBlank secret = false) (given : payload.HasText (user ++ ":" ++ secret)) :
    user? secret payload = some user :=
  user?_eq_some.mpr ⟨_, given, trim_credentials hname hfront hend, hname, hcolon⟩

theorem user?_of_endsBlank (hend : Text.endsBlank secret = true) (payload : Payload) :
    user? secret payload = none := by
  cases huser : user? secret payload with
  | none => rfl
  | some user => exact absurd (user?_eq_some.mp huser) (no_credentials hend)

end TokenGate

namespace InspectorConfig

/-- A gate lets in who shows the name of a user and the secret, in whatever form, and calls the
connection by that name, provided that the secret does not end in a blank. With a secret that does a
gate lets in nobody, whatever is shown to it and however often. -/
theorem right_credentials_open_the_gate {user : String} (hname : user ≠ "")
    (hcolon : ':' ∉ user.toList) (hfront : ∀ c, user.toList.head? = some c → Text.isBlank c = false)
    (secret : String) (timeout : UInt64) (peer : Peer) (now later : Time) :
    let config := tokenAuth secret timeout
    (Text.endsBlank secret = false →
      ∀ source payload, Payload.HasText payload (user ++ ":" ++ secret) →
        ∃ g, Inspector.inspect (config.build peer now) later ⟨source, payload⟩ =
            (.filter, .tokenAuth g) ∧
          g.authenticated = true ∧
          Inspector.id (BuiltInspector.tokenAuth g) = user ++ "@" ++ peer.text) ∧
    (Text.endsBlank secret = true →
      ∀ p, Inspector.inspect (config.build peer now) later p =
        (.reject ⟨peer.text, "invalid credentials"⟩, config.build peer later)) := by
  intro config
  let g : TokenGate := { idle := .new peer (some timeout.toNat) now, peer, secret }
  have gate : config.build peer now = .tokenAuth g := rfl
  refine ⟨fun hend source payload given => ?_, fun hend p => ?_⟩
  · have huser : TokenGate.user? g.secret payload = some user :=
      TokenGate.user?_of_given hname hcolon hfront hend given
    have first := TokenGate.inspect_first (g := g) rfl later ⟨source, payload⟩
    rw [huser, ← gate] at first
    obtain ⟨g', hinspect, hopen, hid⟩ := first
    exact ⟨g', hinspect, hopen, hid⟩
  · have huser : TokenGate.user? g.secret p.payload = none :=
      TokenGate.user?_of_endsBlank hend p.payload
    simp only [gate, Inspector.inspect, BuiltInspector.inspect, TokenGate.inspect, huser]
    rfl

/-- Blanks in a secret do no harm elsewhere, and neither do colons. -/
theorem right_credentials_open_the_gate_of_spaced :
    let secret := "\t a:b"
    let peer : Peer := ⟨"10.0.0.1:80", by decide⟩
    let given : Payload := .raw (Utf8.encode ("x y" ++ ":" ++ secret))
    Text.endsBlank secret = false ∧ given.HasText ("x y" ++ ":" ++ secret) ∧
      ∃ g, Inspector.inspect ((tokenAuth secret 0).build peer 0) 7 ⟨"p", given⟩ =
          (.filter, .tokenAuth g) ∧
        g.authenticated = true ∧
        Inspector.id (BuiltInspector.tokenAuth g) = "x y" ++ "@" ++ peer.text := by
  intro secret peer given
  have hend : Text.endsBlank secret = false := by decide
  have hgiven : given.HasText ("x y" ++ ":" ++ secret) := .raw _
  have front : ∀ c, "x y".toList.head? = some c → Text.isBlank c = false := by
    intro c hc
    obtain rfl : 'x' = c := Option.some.inj hc
    rfl
  obtain ⟨opens, -⟩ :=
    right_credentials_open_the_gate (by decide) (by decide) front secret 0 peer 0 7
  specialize opens hend
  exact ⟨hend, hgiven, opens "p" given hgiven⟩

/-- The secret is right and the gate stays shut. -/
theorem trailing_blank_refused :
    let secret := "pw "
    let peer : Peer := ⟨"10.0.0.1:1", by decide⟩
    let gate := (tokenAuth secret 0).build peer 0
    (Payload.text "u:pw ").HasText ("u" ++ ":" ++ secret) ∧
      Inspector.inspect gate 0 ⟨"p", .text "u:pw "⟩ =
        (.reject ⟨peer.text, "invalid credentials"⟩, gate) := by
  intro secret peer gate
  refine ⟨.text _, ?_⟩
  unfold gate secret
  cbv

end InspectorConfig

end Switchboard
