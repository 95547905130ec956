import ProbeLang.Proofs.Fallible
import ProbeLang.Proofs.Token.Spelling
import ProbeLang.Tree.Parser

/-!
# Readers and the tokens they take

`Takes m ws K Q` says that a reader, met with the tokens `ws` and behind them one of a kind that `K`
admits, takes these tokens, leaves what is behind them and gives an answer with the property `Q`.
The places of the tokens play no part. There is one rule for each way in which a reader looks at a
token or passes one, and one for readers in sequence: what a reader does not take has to begin with
a kind that it may stop at (`Admits`).
-/

namespace ProbeLang.Parse

/-- Whether a stream begins with tokens and then goes on as another stream. -/
inductive Spells : List Bare → TokenStream → TokenStream → Prop
  | nil {k : TokenStream} : Spells [] k k
  | cons {t : Token} {ws : List Bare} {s k : TokenStream} :
      Spells ws s k → Spells (t.bare :: ws) ⟨t, s.current :: s.rest⟩ k

/-- Kinds of token that may stand behind something. -/
abbrev Kinds := Token.Kind → Bool

/-- Whether tokens, or where there are none what may stand behind them, begin with a kind in a
set. -/
def Admits (ws : List Bare) (K J : Kinds) : Prop :=
  match ws with
  | [] => ∀ kind, K kind = true → J kind = true
  | w :: _ => J w.kind = true

/-- Whether a reader takes the given tokens in front of kinds in a set, and answers with a
property. -/
def Takes {α : Type} (m : Parse α) (ws : List Bare) (K : Kinds) (Q : α → Prop) : Prop :=
  ∀ s k, Spells ws s k → K k.current.kind = true → ∃ a, m.run s = .ok (a, k) ∧ Q a

variable {α β : Type} {m : Parse α} {f : α → Parse β} {w v : Bare} {ws vs : List Bare} {J K : Kinds}
  {P Q : α → Prop} {R : β → Prop} {kind : Token.Kind} {s k : TokenStream}

namespace Spells

theorem append : ∀ {ws : List Bare} {s : TokenStream}, Spells (ws ++ vs) s k →
    ∃ j, Spells ws s j ∧ Spells vs j k
  | [], s, h => ⟨s, .nil, h⟩
  | _ :: ws, _, .cons h => by
      obtain ⟨j, hws, hvs⟩ := append h
      exact ⟨j, .cons hws, hvs⟩

theorem current (h : Spells (w :: ws) s k) : s.current.bare = w := by
  cases h
  rfl

theorem advance (h : Spells (w :: ws) s k) : Spells ws s.advance k := by
  cases h with
  | cons h => exact h

theorem rest (h : Spells (w :: ws) s k) : ∃ j, Spells ws j k ∧ s.rest = j.current :: j.rest := by
  cases h with
  | cons h => exact ⟨_, h, rfl⟩

theorem kind_eq (h : Spells (w :: ws) s k) : s.current.kind = w.kind :=
  congrArg Bare.kind h.current

theorem nextKind_eq (h : Spells (w :: v :: ws) s k) : s.nextKind = v.kind := by
  cases h with
  | cons h => exact h.kind_eq

theorem admits {ws : List Bare} {s : TokenStream} (h : Spells ws s k)
    (hk : K k.current.kind = true) (hJ : Admits ws K J) : J s.current.kind = true := by
  cases h with
  | nil => exact hJ _ hk
  | cons _ => exact hJ

/-- Tokens spell themselves. -/
theorem ofTokens (k : TokenStream) : ∀ ts : List Token,
    Spells (ts.map Token.bare) (.ofList (ts ++ k.current :: k.rest)) k
  | [] => .nil
  | t :: ts => by
      have h := ofTokens k ts
      cases ts with
      | nil => exact .cons h
      | cons t' ts => exact .cons h

end Spells

theorem Admits.mono {J' : Kinds} (h : Admits ws K J) (hJ : ∀ kind, J kind = true → J' kind = true) :
    Admits ws K J' := by
  cases ws with
  | nil => exact fun kind hkind => hJ kind (h kind hkind)
  | cons w ws => exact hJ w.kind h

/-- Whether tokens begin with one of some kinds. -/
def Begins (kinds : List Token.Kind) (ws : List Bare) : Prop :=
  ∃ w vs, ws = w :: vs ∧ w.kind ∈ kinds

namespace Begins

variable {kinds : List Token.Kind}

theorem append (h : Begins kinds ws) : Begins kinds (ws ++ vs) := by
  obtain ⟨w, ws, rfl, hkind⟩ := h
  exact ⟨w, ws ++ vs, rfl, hkind⟩

theorem mono {kinds' : List Token.Kind} (h : Begins kinds ws) (hsub : kinds ⊆ kinds') :
    Begins kinds' ws := by
  obtain ⟨w, ws, rfl, hkind⟩ := h
  exact ⟨w, ws, rfl, hsub hkind⟩

/-- A set of kinds that has all of those admits what begins with one. -/
theorem admits (h : Begins kinds ws) (hJ : kinds.all J = true) : Admits ws K J := by
  obtain ⟨w, ws, rfl, hkind⟩ := h
  exact List.all_eq_true.mp hJ _ hkind

theorem length_pos (h : Begins kinds ws) : 0 < ws.length := by
  obtain ⟨w, ws, rfl, -⟩ := h
  exact Nat.succ_pos _

end Begins

namespace Takes

theorem pure {a : α} (h : Q a) : Takes (pure a) [] K Q := by
  intro s k hs _
  cases hs
  exact ⟨a, rfl, h⟩

/-- A reader takes its tokens, and what follows takes the others. -/
theorem bind (hm : Takes m ws J P) (hJ : Admits vs K J) (hf : ∀ a, P a → Takes (f a) vs K R) :
    Takes (m >>= f) (ws ++ vs) K R := by
  intro s k hs hk
  obtain ⟨j, hws, hvs⟩ := hs.append
  obtain ⟨a, hrun, ha⟩ := hm s j hws (hvs.admits hk hJ)
  obtain ⟨b, hrun', hb⟩ := hf a ha j k hvs hk
  exact ⟨b, by rw [StateT.run_bind, hrun]; exact hrun', hb⟩

/-- What a reader takes in front of anything is followed by anything. -/
theorem bind_any (hm : Takes m ws (fun _ => true) P) (hf : ∀ a, P a → Takes (f a) vs K R) :
    Takes (m >>= f) (ws ++ vs) K R := by
  refine hm.bind ?_ hf
  cases vs with
  | nil => exact fun _ _ => rfl
  | cons v vs => rfl

/-- A reader takes all the tokens, and what follows takes none. -/
theorem bind_last (hm : Takes m ws J P) (hJ : ∀ kind, K kind = true → J kind = true)
    (hf : ∀ a, P a → Takes (f a) [] K R) : Takes (m >>= f) ws K R := by
  have h : Takes (m >>= f) (ws ++ []) K R := hm.bind hJ hf
  rwa [List.append_nil] at h

theorem mono (h : Takes m ws J P) (hK : ∀ kind, K kind = true → J kind = true)
    (hQ : ∀ a, P a → Q a) : Takes m ws K Q := by
  intro s k hs hk
  obtain ⟨a, hrun, ha⟩ := h s k hs (hK _ hk)
  exact ⟨a, hrun, hQ a ha⟩

/-! ### Looking at tokens -/

/-- A reader may look at the stream. -/
theorem get {f : TokenStream → Parse β}
    (h : ∀ s k, Spells ws s k → K k.current.kind = true → Takes (f s) ws K R) :
    Takes (get >>= f) ws K R :=
  fun s k hs hk => h s k hs hk s k hs hk

theorem peek {f : Token → Parse β}
    (h : ∀ t, t.bare = w → Takes (f t) (w :: ws) K R) : Takes (peek >>= f) (w :: ws) K R :=
  fun s k hs hk => h s.current hs.current s k hs hk

/-- What stands here may be looked at where nothing hangs on it. -/
theorem peek_any {f : Token → Parse β} (h : ∀ t, Takes (f t) ws K R) :
    Takes (Parse.peek >>= f) ws K R :=
  fun s k hs hk => h s.current s k hs hk

/-- What stands here may be looked at where its kind is all that counts. -/
theorem peek_kind {f : Token → Parse β} (hJ : Admits ws K J)
    (h : ∀ t : Token, J t.kind = true → Takes (f t) ws K R) : Takes (Parse.peek >>= f) ws K R :=
  fun s k hs hk => h s.current (hs.admits hk hJ) s k hs hk

theorem check_true {f : Bool → Parse β} (hw : w.kind = kind) (h : Takes (f true) (w :: ws) K R) :
    Takes (check kind >>= f) (w :: ws) K R := by
  intro s k hs hk
  obtain ⟨b, hrun, hb⟩ := h s k hs hk
  have hcheck : (s.current.kind == kind) = true := beq_iff_eq.mpr (hs.kind_eq.trans hw)
  exact ⟨b, by rw [← hrun, ← hcheck]; rfl, hb⟩

/-- What stands behind all tokens may be of one kind alone. -/
theorem check_last {f : Bool → Parse β} (hK : ∀ next, K next = true → next = kind)
    (h : Takes (f true) [] K R) : Takes (check kind >>= f) [] K R := by
  intro s k hs hk
  obtain ⟨b, hrun, hb⟩ := h s k hs hk
  cases hs
  have hcheck : (s.current.kind == kind) = true := beq_iff_eq.mpr (hK _ hk)
  exact ⟨b, by rw [← hrun, ← hcheck]; rfl, hb⟩

theorem check_false {f : Bool → Parse β} (hJ : Admits ws K (· != kind))
    (h : Takes (f false) ws K R) : Takes (check kind >>= f) ws K R := by
  intro s k hs hk
  obtain ⟨b, hrun, hb⟩ := h s k hs hk
  have hcheck : (s.current.kind == kind) = false := by
    have hne := hs.admits hk hJ
    simpa using hne
  exact ⟨b, by rw [← hrun, ← hcheck]; rfl, hb⟩

/-! ### Passing tokens -/

theorem advance {f : Token → Parse β} (h : ∀ t, t.bare = w → Takes (f t) ws K R) :
    Takes (advance >>= f) (w :: ws) K R :=
  fun s k hs hk => h s.current hs.current s.advance k hs.advance hk

theorem accept {f : Bool → Parse β} (hw : w.kind = kind) (h : Takes (f true) ws K R) :
    Takes (accept kind >>= f) (w :: ws) K R := by
  rw [Parse.accept, bind_assoc]
  refine check_true hw ?_
  rw [if_pos rfl, bind_assoc]
  exact advance fun _ _ => h

theorem reject {f : Bool → Parse β} (hJ : Admits ws K (· != kind)) (h : Takes (f false) ws K R) :
    Takes (Parse.accept kind >>= f) ws K R := by
  rw [Parse.accept, bind_assoc]
  exact check_false hJ h

theorem expect {f : Token → Parse β} (hw : w.kind = kind)
    (h : ∀ t, t.bare = w → Takes (f t) ws K R) : Takes (expect kind >>= f) (w :: ws) K R := by
  rw [Parse.expect, bind_assoc]
  refine peek fun t ht => ?_
  have hkind : t.kind = kind := (congrArg Bare.kind ht).trans hw
  rw [if_pos hkind]
  exact advance h

theorem ident {f : Ident → Parse β} {name : String} (h : ∀ p, Takes (f ⟨name, p⟩) ws K R) :
    Takes (ident >>= f) (.ident name :: ws) K R := by
  rw [Parse.ident, bind_assoc]
  refine expect rfl fun t ht => ?_
  cases congrArg Bare.text ht
  exact h t.pos

end Takes

end ProbeLang.Parse
