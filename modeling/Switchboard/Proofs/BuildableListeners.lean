import Switchboard.Listener.Stages
import Switchboard.Proofs.CharsetRoundTrip
import Switchboard.Proofs.Framing

namespace Switchboard

namespace Charset

variable {charset : Charset}

theorem encodeChar_ne_nil (charset : Charset) (c : Char) : charset.encodeChar c ≠ [] := by
  cases charset with
  | utf8 =>
    show Utf8.encodeChar c ≠ []
    rw [Utf8.encodeChar_eq]
    split
    · simp
    split
    · simp
    split <;> simp
  | ascii | latin1 => simp [encodeChar]

theorem encodeAll_ne_nil (charset : Charset) {cs : List Char} (h : cs ≠ []) :
    charset.encodeAll cs ≠ [] := by
  obtain ⟨c, cs, rfl⟩ := List.exists_cons_of_ne_nil h
  simp [encodeAll, encodeChar_ne_nil]

theorem encode_strict_error {text : String} {e : Error}
    (h : charset.encode .strict text = .error e) : ∃ c ∈ text.toList,
      charset.represents c = false ∧ e = .encode (.unrepresentable c charset) := by
  simp only [encode] at h
  split at h
  next c hfind =>
    refine ⟨c, List.mem_of_find?_eq_some hfind, ?_, (Except.error.inj h).symm⟩
    simpa using List.find?_some hfind
  next => cases h

end Charset

namespace LineConfig

/-- The charset has all characters of the delimiter. -/
def Writable (l : LineConfig) : Prop := ∀ c ∈ l.delimiter.toList, l.charset.represents c

instance (l : LineConfig) : Decidable l.Writable := List.decidableBAll _ _

theorem delimiter_of_validate {l : LineConfig} (valid : l.validate = .ok ()) :
    l.delimiter.toList ≠ [] := by
  intro none
  have empty : l.delimiter = "" := String.toList_eq_nil_iff.mp none
  rw [validate, empty] at valid
  cases valid

end LineConfig

/-- The settings of all codecs for lines in a description. -/
def CodecConfig.lines : CodecConfig → List LineConfig
  | line l => [l]
  | json l => [l]
  | deflate _ inner => inner.lines
  | delay _ inner => inner.lines
  | split decoder encoder => decoder.lines ++ encoder.lines

/-- What comes of building something of validated parts, with the settings for lines among them:
only a character that is missing in a charset is in the way. -/
inductive Outcome {α : Type} (lines : List LineConfig) : Except Error α → Prop
  | built (a : α) : (∀ l ∈ lines, l.Writable) → Outcome lines (.ok a)
  | unwritable {l : LineConfig} {c : Char} : l ∈ lines → c ∈ l.delimiter.toList →
      l.charset.represents c = false → Outcome lines (.error (.encode (.unrepresentable c l.charset)))

namespace Outcome

variable {α β : Type} {lines more : List LineConfig} {x : Except Error α} {f : α → Except Error β}

theorem bind (h : Outcome lines x) (hf : ∀ a, Outcome more (f a)) :
    Outcome (lines ++ more) (x >>= f) := by
  cases h with
  | built a writable =>
    show Outcome (lines ++ more) (f a)
    generalize hfa : f a = y
    have next := hf a
    rw [hfa] at next
    cases next with
    | built b rest => exact .built b (by simpa [or_imp, forall_and] using ⟨writable, rest⟩)
    | unwritable hl hc lacks => exact .unwritable (List.mem_append_right _ hl) hc lacks
  | unwritable hl hc lacks => exact .unwritable (List.mem_append_left _ hl) hc lacks

theorem map (h : Outcome lines x) (g : α → β) : Outcome lines (x >>= fun a => .ok (g a)) := by
  have then_ (a : α) : Outcome [] (.ok (g a)) := .built (g a) (by simp)
  have := h.bind then_
  rwa [List.append_nil] at this

end Outcome

namespace LineCodec

theorem new_outcome {config : LineConfig} (valid : config.validate = .ok ()) (hook : LineHook) :
    Outcome [config] (new config hook) := by
  rw [new, valid]
  cases hd : config.charset.encode .strict config.delimiter with
  | error e =>
    obtain ⟨c, hc, lacks, rfl⟩ := Charset.encode_strict_error hd
    exact .unwritable (List.mem_singleton.mpr rfl) hc lacks
  | ok d =>
    obtain ⟨writable, rfl⟩ := Charset.encode_strict_eq_ok.mp hd
    have some := config.charset.encodeAll_ne_nil (LineConfig.delimiter_of_validate valid)
    obtain ⟨f, hf, _⟩ := Framer.new_tracks some
    have framed : Outcome [config] (Framer.new (config.charset.encodeAll config.delimiter.toList)) := by
      rw [hf]
      exact .built f fun l hl => by rwa [List.mem_singleton.mp hl]
    exact framed.map _

end LineCodec

namespace CodecState

variable {K : Type} [Deflate.Compressor K]

theorem build_outcome {c : CodecConfig} (valid : c.validate = .ok ()) (key : Nat) :
    Outcome c.lines (build (K := K) true c key) := by
  induction c generalizing key with
  | line config => exact (LineCodec.new_outcome valid _).map _
  | json config => exact (LineCodec.new_outcome valid _).map _
  | deflate level inner ih =>
    have inside : inner.validate = .ok () := by
      rw [CodecConfig.validate] at valid
      split at valid
      · cases valid
      · exact valid
    exact (ih inside key).map _
  | delay ms inner ih =>
    exact (ih valid (key + 1)).map _
  | split decoder encoder ihd ihe =>
    obtain ⟨_, hdecoder, hencoder⟩ := bind_eq_ok.mp valid
    exact (ihd hdecoder key).bind fun first => (ihe hencoder first.2).map _

end CodecState

namespace ListenerConfig

variable {H : Type} {d : ListenerConfig}

theorem codec_of_validate (valid : d.validate = .ok ()) : d.codec.validate = .ok () := by
  rw [validate] at valid
  split at valid
  · cases valid
  split at valid
  · cases valid
  · cases hcodec : d.codec.validate with
    | ok => rfl
    | error cause =>
      rw [hcodec] at valid
      cases valid

theorem stages_outcome (valid : d.validate = .ok ()) (registry : HandlerRegistry H) (peer : Peer)
    (now : Time) (key : Nat) : Outcome d.codec.lines (d.stages registry peer now true key) :=
  ((CodecState.build_outcome (codec_of_validate valid) key).map _).map _

/-- With a scheduler, a validated listener makes the parts of a connection unless a delimiter has a
character that its charset lacks; then none of its connections can be made, and the error names
the character. -/
theorem stages_of_validated (valid : d.validate = .ok ()) (registry : HandlerRegistry H)
    (peer : Peer) (now : Time) (key : Nat) :
    ((∃ built, d.stages registry peer now true key = .ok built) ↔
      ∀ l ∈ d.codec.lines, l.Writable) ∧
    ∀ e, d.stages registry peer now true key = .error e →
      ∃ l ∈ d.codec.lines, ∃ c ∈ l.delimiter.toList, l.charset.represents c = false ∧
        e = .encode (.unrepresentable c l.charset) := by
  have outcome := stages_outcome valid registry peer now key
  generalize d.stages registry peer now true key = result at outcome ⊢
  cases outcome with
  | built parts writable => exact ⟨iff_of_true ⟨parts, rfl⟩ writable, by simp⟩
  | @unwritable l c hl hc lacks =>
    refine ⟨iff_of_false (by simp) fun writable => ?_, fun e he => ?_⟩
    · simpa [lacks] using writable l hl c hc
    · exact ⟨l, hl, c, hc, lacks, (Except.error.inj he).symm⟩

/-- Lines behind a compressor one way, and delayed the other way, with another delimiter each. -/
def nested : ListenerConfig :=
  let lines : CodecConfig := .line { charset := .latin1, delimiter := "é" }
  let values : CodecConfig := .json { charset := .ascii, delimiter := "--" }
  { new "nested" 0 with codec := .split (.deflate 9 lines) (.delay 20 values) }

theorem stages_of_validated_nested :
    nested.validate = .ok () ∧ (∀ l ∈ nested.codec.lines, l.Writable) ∧
      ∃ built, nested.stages HandlerRegistry.standard ⟨"127.0.0.1:1", by decide⟩ 0 true 0 =
        .ok built := by
  have valid : nested.validate = .ok () := rfl
  have writable : ∀ l ∈ nested.codec.lines, l.Writable := by decide
  exact ⟨valid, writable, (stages_of_validated valid _ _ _ _).1.mpr writable⟩

/-- A listener whose delimiter is missing in its charset. -/
def accented : ListenerConfig :=
  { new "accented" 0 with codec := .line { charset := .ascii, delimiter := "é" } }

theorem accented_validated_unbuilt : accented.validate = .ok () ∧
    ∀ (registry : HandlerRegistry StandardHandler) (peer : Peer) (now : Time) (key : Nat),
      accented.stages registry peer now true key =
        .error (.encode (.unrepresentable 'é' .ascii)) := by
  refine ⟨rfl, fun registry peer now key => ?_⟩
  rfl

end ListenerConfig

end Switchboard
