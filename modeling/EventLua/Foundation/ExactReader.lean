import EventLua.Foundation.LittleEndian
import EventLua.Foundation.MachineInteger

/-!
Readers and the languages they read. A language relates the words of a format to
what they mean. A reader is exact for a language when it succeeds on the inputs that
begin with a word and takes just this word. Exact readers in sequence are exact.
-/
namespace EventLua
open List

abbrev Language (α : Type) := Bytes → α → Prop

namespace Language
variable {α β : Type}

def block (n : Nat) : Language Bytes := fun word a => word.length = n ∧ a = word

def empty (a : α) : Language α := fun word b => word = [] ∧ b = a

def none : Language α := fun _ _ => False

def seq (L : Language α) (N : α → Language β) : Language β := fun word b =>
  ∃ first second a, word = first ++ second ∧ L first a ∧ N a second b

def many (L : Language α) : Language (List α) := fun word as =>
  ∃ words, word = words.flatten ∧ List.Forall₂ L words as

theorem many_nil {L : Language α} {word : Bytes} : L.many word [] ↔ word = [] := by
  refine ⟨?_, fun h => ⟨[], h, .nil⟩⟩
  rintro ⟨words, rfl, hwords⟩
  cases hwords
  rfl

theorem many_cons {L : Language α} {word : Bytes} {a : α} {as : List α} :
    L.many word (a :: as) ↔ ∃ first rest, word = first ++ rest ∧ L first a ∧ L.many rest as := by
  refine ⟨?_, ?_⟩
  · rintro ⟨words, rfl, hwords⟩
    cases hwords with
    | cons hfirst hrest => exact ⟨_, _, rfl, hfirst, _, rfl, hrest⟩
  · rintro ⟨first, rest, rfl, hfirst, words, rfl, hwords⟩
    exact ⟨first :: words, rfl, .cons hfirst hwords⟩

end Language

/-- `shows s tail` says that the state `s` has `tail` in front of it. -/
structure Exact {σ α : Type} (shows : σ → Bytes → Prop) (read : σ → Outcome (α × σ))
    (L : Language α) : Prop where
  sound : ∀ {s tail a s'}, shows s tail → read s = .ok (a, s') →
    ∃ word rest, tail = word ++ rest ∧ L word a ∧ shows s' rest
  complete : ∀ {s word rest a}, shows s (word ++ rest) → L word a →
    ∃ s', read s = .ok (a, s') ∧ shows s' rest
  defined : ∀ {s tail}, shows s tail → read s ≠ .error .undefined

namespace Exact
variable {σ α β : Type} {shows : σ → Bytes → Prop} {read : σ → Outcome (α × σ)}
  {L M : Language α}

theorem unambiguous (h : Exact shows read L) (hshows : ∀ {s t t'}, shows s t → shows s t' → t = t')
    (hs : shows s (word ++ rest)) (hword : L word a) (hs' : shows s (word' ++ rest'))
    (hword' : L word' a') : a = a' ∧ rest = rest' := by
  obtain ⟨_, hread, hrest⟩ := h.complete hs hword
  obtain ⟨_, hread', hrest'⟩ := h.complete hs' hword'
  cases hread.symm.trans hread'
  exact ⟨rfl, hshows hrest hrest'⟩

theorem congr (h : Exact shows read L) (heq : ∀ word a, L word a ↔ M word a) :
    Exact shows read M := by
  have hLM : L = M := funext fun word => funext fun a => propext (heq word a)
  exact hLM ▸ h

theorem empty (a : α) : Exact shows (fun s => .ok (a, s)) (Language.empty a) where
  sound hs h := by
    cases h
    exact ⟨[], _, rfl, ⟨rfl, rfl⟩, hs⟩
  complete hs h := by
    obtain ⟨rfl, rfl⟩ := h
    exact ⟨_, rfl, hs⟩
  defined _ h := by cases h

theorem raised (message : String) :
    Exact (α := α) shows (fun _ => .error (.raised message)) Language.none where
  sound _ h := by cases h
  complete _ h := h.elim
  defined _ h := by cases h

theorem bind (hread : Exact shows read L) (hk : ∀ a, Exact shows (fun s => k (a, s)) (N a)) :
    Exact shows (fun s => read s >>= k) (L.seq N) where
  sound hs h := by
    obtain ⟨⟨a, s₁⟩, hfirst, hsecond⟩ := Outcome.bind_eq_ok.mp h
    obtain ⟨first, tail, rfl, hL, hs₁⟩ := hread.sound hs hfirst
    obtain ⟨second, rest, rfl, hN, hs₂⟩ := (hk a).sound hs₁ hsecond
    exact ⟨first ++ second, rest, (append_assoc _ _ _).symm, ⟨first, second, a, rfl, hL, hN⟩, hs₂⟩
  complete hs h := by
    obtain ⟨first, second, a, rfl, hL, hN⟩ := h
    rw [append_assoc] at hs
    obtain ⟨s₁, hfirst, hs₁⟩ := hread.complete hs hL
    obtain ⟨s₂, hsecond, hs₂⟩ := (hk a).complete hs₁ hN
    exact ⟨s₂, Outcome.bind_eq_ok.mpr ⟨_, hfirst, hsecond⟩, hs₂⟩
  defined {s tail} hs := by
    cases hfirst : read s with
    | error fault =>
      intro h
      exact hread.defined hs (hfirst.trans (congrArg _ (Except.error.inj h)))
    | ok result =>
      obtain ⟨a, s₁⟩ := result
      obtain ⟨_, rest, _, _, hs₁⟩ := hread.sound hs hfirst
      exact (hk a).defined hs₁

theorem map (f : α → β) (h : Exact shows read L) :
    Exact shows (fun s => read s >>= fun result => .ok (f result.1, result.2))
      (fun word b => ∃ a, L word a ∧ b = f a) := by
  refine (h.bind fun a => empty (f a)).congr fun word b => ⟨?_, ?_⟩
  · rintro ⟨first, second, a, rfl, hL, rfl, rfl⟩
    exact ⟨a, by rwa [append_nil], rfl⟩
  · rintro ⟨a, hL, rfl⟩
    exact ⟨word, [], a, (append_nil word).symm, hL, rfl, rfl⟩

end Exact

end EventLua
