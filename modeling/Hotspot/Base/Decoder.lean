-- SUMMARY: Decoders that go on after an error: grammars, and the rules for their parts.
import Hotspot.Base.Except

/-!
# Decoders with lasting errors

A decoder reads a list of tokens. An error is recorded and the computation goes on; only a
fault, such as an access outside of an array, stops it. The result counts if there is no
error in the end.

A decoder decodes a grammar if it has no fault, if every result that counts is one the
grammar gives to the tokens that were read, and if it finds each of these results.
-/

namespace Hotspot

/-- The tokens that are left, and the errors reported so far. -/
structure Input (β ε : Type) where
  rest : List β
  errors : List ε

abbrev Decoder (β ε φ : Type) := StateT (Input β ε) (Except φ)

namespace Decoder

variable {β ε φ α γ : Type}

/-- The next token. At the end of the input an error is reported and the default is returned. -/
def token (e : ε) (default : β) : Decoder β ε φ β := fun s =>
  match s.rest with
  | [] => .ok (default, ⟨[], s.errors ++ [e]⟩)
  | b :: rest => .ok (b, ⟨rest, s.errors⟩)

/-- Report an error unless the input is at its end. -/
def atEnd (e : ε) : Decoder β ε φ Unit := fun s =>
  .ok ((), ⟨s.rest, if s.rest.isEmpty then s.errors else s.errors ++ [e]⟩)

def fault (f : φ) : Decoder β ε φ α := fun _ => .error f

def report (e : ε) : Decoder β ε φ Unit := fun s => .ok ((), ⟨s.rest, s.errors ++ [e]⟩)

/-- Go on with the body unless an error was reported. -/
def unlessError (body : Decoder β ε φ (Option α)) : Decoder β ε φ (Option α) := fun s =>
  if s.errors.isEmpty then body s else .ok (none, s)

/-- The meaning of a decoder on an input: the grammar relates tokens and results. -/
structure DecodesAt (s : Input β ε) (d : Decoder β ε φ α) (G : List β → α → Prop) : Prop where
  sound : ∃ a s', d.run s = .ok (a, s') ∧
    (s'.errors = [] → s.errors = [] ∧ ∃ b, s.rest = b ++ s'.rest ∧ G b a)
  complete : ∀ b a r, s = ⟨b ++ r, []⟩ → G b a → d.run s = .ok (a, ⟨r, []⟩)

/-- The meaning of a decoder on every input. -/
def Decodes (d : Decoder β ε φ α) (G : List β → α → Prop) : Prop := ∀ s, DecodesAt s d G

variable {s : Input β ε} {d : Decoder β ε φ α} {G G' : List β → α → Prop}

theorem DecodesAt.congr (h : DecodesAt s d G) (hiff : ∀ b a, G b a ↔ G' b a) :
    DecodesAt s d G' := by
  have heq : G = G' := by
    funext b a
    exact propext (hiff b a)
  exact heq ▸ h

theorem Decodes.congr (h : Decodes d G) (hiff : ∀ b a, G b a ↔ G' b a) : Decodes d G' :=
  fun s => (h s).congr hiff

theorem decodes_pure (a : α) : Decodes (pure a : Decoder β ε φ α) fun b c => b = [] ∧ c = a := by
  intro s
  refine ⟨⟨a, s, rfl, fun hclean => ⟨hclean, [], rfl, rfl, rfl⟩⟩, ?_⟩
  rintro b c r rfl ⟨rfl, rfl⟩
  rfl

theorem decodes_token (e : ε) (default : β) :
    Decodes (token e default : Decoder β ε φ β) fun b c => b = [c] := by
  intro s
  rcases s with ⟨rest, errors⟩
  cases rest with
  | nil =>
    refine ⟨⟨default, ⟨[], errors ++ [e]⟩, rfl, fun hclean => ?_⟩, ?_⟩
    · simp at hclean
    · rintro b c r hs rfl
      cases hs
  | cons t rest =>
    refine ⟨⟨t, ⟨rest, errors⟩, rfl, fun hclean => ⟨hclean, [t], rfl, rfl⟩⟩, ?_⟩
    rintro b c r hs rfl
    cases hs
    rfl

/-- After a report no result counts. -/
theorem decodes_report (e : ε) : Decodes (report e : Decoder β ε φ Unit) fun _ _ => False := by
  intro s
  refine ⟨⟨(), ⟨s.rest, s.errors ++ [e]⟩, rfl, fun hclean => ?_⟩, fun b c r _ h => h.elim⟩
  simp at hclean

theorem DecodesAt.bind {f : α → Decoder β ε φ γ} {T : α → List β → γ → Prop}
    (hd : DecodesAt s d G) (hf : ∀ a s', d.run s = .ok (a, s') → DecodesAt s' (f a) (T a)) :
    DecodesAt s (d >>= f) fun b c => ∃ b₁ b₂ a, b = b₁ ++ b₂ ∧ G b₁ a ∧ T a b₂ c := by
  constructor
  · obtain ⟨a, s', hrun, himp⟩ := hd.sound
    obtain ⟨c, s'', hrun', himp'⟩ := (hf a s' hrun).sound
    refine ⟨c, s'', ?_, ?_⟩
    · rw [StateT.run_bind, hrun]
      exact hrun'
    intro hclean
    obtain ⟨hclean', b₂, hrest', hT⟩ := himp' hclean
    obtain ⟨hclean'', b₁, hrest, hG⟩ := himp hclean'
    refine ⟨hclean'', b₁ ++ b₂, ?_, b₁, b₂, a, rfl, hG, hT⟩
    rw [hrest, hrest', List.append_assoc]
  · rintro b c r hs ⟨b₁, b₂, a, rfl, hG, hT⟩
    have hrun := hd.complete b₁ a (b₂ ++ r) (by rw [hs, List.append_assoc]) hG
    rw [StateT.run_bind, hrun]
    exact (hf a _ hrun).complete b₂ c r rfl hT

theorem Decodes.bind {f : α → Decoder β ε φ γ} {T : α → List β → γ → Prop}
    (hd : Decodes d G) (hf : ∀ a, Decodes (f a) (T a)) :
    Decodes (d >>= f) fun b c => ∃ b₁ b₂ a, b = b₁ ++ b₂ ∧ G b₁ a ∧ T a b₂ c :=
  fun s => (hd s).bind fun a s' _ => hf a s'

theorem decodes_report_pure (e : ε) (a : α) :
    Decodes (report e >>= fun _ => (pure a : Decoder β ε φ α)) fun _ _ => False :=
  ((decodes_report e).bind fun _ => decodes_pure a).congr fun b c => by simp

/-- Read a token and decode what may follow it. -/
theorem Decodes.token_bind {e : ε} {default : β} {f : β → Decoder β ε φ α}
    (hnil : ∀ a, ¬G [] a) (hf : ∀ t, Decodes (f t) fun b a => G (t :: b) a) :
    Decodes (token e default >>= f) G := by
  refine ((decodes_token e default).bind hf).congr fun b a => ⟨?_, fun h => ?_⟩
  · rintro ⟨b₁, b₂, t, rfl, rfl, h⟩
    exact h
  · cases b with
    | nil => exact absurd h (hnil a)
    | cons t b => exact ⟨[t], b, t, rfl, rfl, h⟩

theorem Decodes.unlessError {body : Decoder β ε φ (Option α)} {G : List β → Option α → Prop}
    (h : Decodes body G) : Decodes (unlessError body) G := by
  intro s
  rcases s with ⟨rest, errors⟩
  cases errors with
  | nil => exact ⟨(h ⟨rest, []⟩).sound, (h ⟨rest, []⟩).complete⟩
  | cons e errors =>
    refine ⟨⟨none, ⟨rest, e :: errors⟩, rfl, fun hclean => by cases hclean⟩, ?_⟩
    intro b a r hs
    cases hs

end Decoder

end Hotspot
