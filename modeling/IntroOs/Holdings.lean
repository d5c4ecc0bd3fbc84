/-
Resources with exactly one holder.  `own` says what each home holds and
`amount` how many copies of each token exist; `Exact` says that every existing
token is in one place, once.  The rules say which changes keep that.
-/
import Mathlib.Data.Multiset.AddSub
import Mathlib.Data.Multiset.Count

namespace Holdings

variable {Home Token : Type} [DecidableEq Token]

/-- Every token exists at most once, and is then held at a single home. -/
def Exact (own : Home → Multiset Token) (amount : Token → Nat) : Prop :=
  ∀ token,
    (amount token = 0 ∧ ∀ home, (own home).count token = 0) ∨
    (amount token = 1 ∧ ∃ home, (own home).count token = 1 ∧
      ∀ other, other ≠ home → (own other).count token = 0)

variable {own own' : Home → Multiset Token} {amount amount' : Token → Nat}

theorem Exact.count_le (h : Exact own amount) (home : Home) (token : Token) :
    (own home).count token ≤ amount token := by
  rcases h token with ⟨-, hnone⟩ | ⟨hone, first, hfirst, hothers⟩
  · rw [hnone home]
    exact Nat.zero_le _
  · by_cases heq : home = first
    · rw [heq, hfirst, hone]
    · rw [hothers home heq]
      exact Nat.zero_le _

theorem Exact.amount_le (h : Exact own amount) (token : Token) :
    amount token ≤ 1 := by
  rcases h token with ⟨hzero, -⟩ | ⟨hone, -⟩
  · omega
  · omega

theorem Exact.nodup (h : Exact own amount) (home : Home) :
    (own home).Nodup := by
  rw [Multiset.nodup_iff_count_le_one]
  intro token
  exact (h.count_le home token).trans (h.amount_le token)

theorem Exact.amount_of_mem (h : Exact own amount) {a : Home} {token : Token}
    (hmem : token ∈ own a) : amount token = 1 := by
  have hpos := Multiset.count_pos.mpr hmem
  have hcount := h.count_le a token
  have hle := h.amount_le token
  omega

theorem Exact.home_unique (h : Exact own amount) {a b : Home} {token : Token}
    (ha : token ∈ own a) (hb : token ∈ own b) : a = b := by
  rcases h token with ⟨-, hnone⟩ | ⟨-, first, -, hothers⟩
  · exact absurd (Multiset.count_pos.mpr ha) (by rw [hnone a]; omega)
  · have hfirst : ∀ place, token ∈ own place → place = first := by
      intro place hplace
      by_contra hne
      have hpos := Multiset.count_pos.mpr hplace
      rw [hothers place hne] at hpos
      omega
    rw [hfirst a ha, hfirst b hb]

theorem Exact.exists_home (h : Exact own amount) {token : Token}
    (hone : amount token = 1) : ∃ home, token ∈ own home := by
  rcases h token with ⟨hzero, -⟩ | ⟨-, first, hfirst, -⟩
  · omega
  · exact ⟨first, Multiset.count_pos.mp (by omega)⟩

/-- A change at one home keeps the books exact when what the home gains and
loses is what comes into existence and goes out of it. -/
theorem Exact.change (h : Exact own amount) (a : Home)
    (gain lose : Multiset Token)
    (hsame : ∀ home, home ≠ a → own' home = own home)
    (hsum : own' a + lose = own a + gain)
    (hamount : ∀ token,
      amount' token + lose.count token = amount token + gain.count token)
    (hnew : ∀ token, amount token + gain.count token ≤ 1) :
    Exact own' amount' := by
  intro token
  have hcount := congrArg (Multiset.count token) hsum
  simp only [Multiset.count_add] at hcount
  have hbooks := hamount token
  have hone := hnew token
  rcases h token with ⟨hzero, hnone⟩ | ⟨hexists, first, hfirst, hothers⟩
  · have ha := hnone a
    by_cases hgone : amount' token = 0
    · refine Or.inl ⟨hgone, fun home => ?_⟩
      by_cases heq : home = a
      · rw [heq]
        omega
      · rw [hsame home heq]
        exact hnone home
    · refine Or.inr ⟨by omega, a, by omega, fun other hother => ?_⟩
      rw [hsame other hother]
      exact hnone other
  · by_cases heq : first = a
    · subst heq
      by_cases hgone : amount' token = 0
      · refine Or.inl ⟨hgone, fun home => ?_⟩
        by_cases hhome : home = first
        · rw [hhome]
          omega
        · rw [hsame home hhome]
          exact hothers home hhome
      · refine Or.inr ⟨by omega, first, by omega, fun other hother => ?_⟩
        rw [hsame other hother]
        exact hothers other hother
    · have ha := hothers a (Ne.symm heq)
      refine Or.inr ⟨by omega, first, ?_, fun other hother => ?_⟩
      · rw [hsame first heq]
        exact hfirst
      · by_cases hothera : other = a
        · rw [hothera]
          omega
        · rw [hsame other hothera]
          exact hothers other hother

/-- The same for a change at two homes, between which tokens may move. -/
theorem Exact.exchange (h : Exact own amount) {a b : Home} (hab : a ≠ b)
    (gain lose : Multiset Token)
    (hsame : ∀ home, home ≠ a → home ≠ b → own' home = own home)
    (hsum : own' a + own' b + lose = own a + own b + gain)
    (hamount : ∀ token,
      amount' token + lose.count token = amount token + gain.count token)
    (hnew : ∀ token, amount token + gain.count token ≤ 1) :
    Exact own' amount' := by
  intro token
  have hcount := congrArg (Multiset.count token) hsum
  simp only [Multiset.count_add] at hcount
  have hbooks := hamount token
  have hone := hnew token
  have hcases : ∀ home, home ≠ a → home ≠ b →
      (own' home).count token = (own home).count token := by
    intro home ha hb
    rw [hsame home ha hb]
  have htotal : ((own a).count token + (own b).count token = amount token ∧
      ∀ home, home ≠ a → home ≠ b → (own home).count token = 0) ∨
      (amount token = 1 ∧ (own a).count token = 0 ∧ (own b).count token = 0 ∧
        ∃ first, first ≠ a ∧ first ≠ b ∧ (own first).count token = 1 ∧
          ∀ other, other ≠ first → (own other).count token = 0) := by
    rcases h token with ⟨hzero, hnone⟩ | ⟨hexists, first, hfirst, hothers⟩
    · refine Or.inl ⟨?_, fun home _ _ => hnone home⟩
      rw [hnone a, hnone b, hzero]
    · by_cases hfa : first = a
      · subst hfa
        refine Or.inl ⟨?_, fun home hhome _ => hothers home hhome⟩
        rw [hfirst, hothers b (Ne.symm hab), hexists]
      · by_cases hfb : first = b
        · subst hfb
          refine Or.inl ⟨?_, fun home _ hhome => hothers home hhome⟩
          rw [hfirst, hothers a hab, hexists]
        · exact Or.inr ⟨hexists, hothers a (Ne.symm hfa),
            hothers b (Ne.symm hfb), first, hfa, hfb, hfirst, hothers⟩
  rcases htotal with ⟨hhere, helse⟩ |
    ⟨hexists, ha, hb, first, hfa, hfb, hfirst, hothers⟩
  · have hrest : ∀ home, home ≠ a → home ≠ b →
        (own' home).count token = 0 := by
      intro home hhomeA hhomeB
      rw [hcases home hhomeA hhomeB, helse home hhomeA hhomeB]
    by_cases hgone : amount' token = 0
    · refine Or.inl ⟨hgone, fun home => ?_⟩
      by_cases hhomeA : home = a
      · rw [hhomeA]
        omega
      · by_cases hhomeB : home = b
        · rw [hhomeB]
          omega
        · exact hrest home hhomeA hhomeB
    · by_cases hat : (own' a).count token = 1
      · refine Or.inr ⟨by omega, a, hat, fun other hother => ?_⟩
        by_cases hotherB : other = b
        · rw [hotherB]
          omega
        · exact hrest other hother hotherB
      · refine Or.inr ⟨by omega, b, by omega, fun other hother => ?_⟩
        by_cases hotherA : other = a
        · rw [hotherA]
          omega
        · exact hrest other hotherA hother
  · refine Or.inr ⟨by omega, first, ?_, fun other hother => ?_⟩
    · rw [hcases first hfa hfb, hfirst]
    · by_cases hotherA : other = a
      · rw [hotherA]
        omega
      · by_cases hotherB : other = b
        · rw [hotherB]
          omega
        · rw [hcases other hotherA hotherB]
          exact hothers other hother

end Holdings
