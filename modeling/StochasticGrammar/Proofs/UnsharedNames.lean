import StochasticGrammar.Proofs.LeadingNames
import StochasticGrammar.Proofs.NodeMeaning

namespace StochasticGrammar

variable {α : Type}

/-- A definition gives its name a node of its own, or the node of the name that it is a bare rule of.
No other names come to share nodes. -/
theorem Wired.shares_of_defines {leader : String → String → String} {table : Table α}
    {registry later : Registry α} {policy : LiteralPolicy α} {step : Step α}
    (h : Wired leader table registry) (hstep : Defines policy registry step later) {name : String}
    (hshares : later.Shares name) :
    registry.Shares name ∨ ∃ text, step = .compile step.name text ∧
      Rule.read text = .ok (.bare text) ∧ (name = step.name ∨ name = text) := by
  obtain ⟨other, place, hne, hname, hother⟩ := Registry.find?_eq_of_shares hshares
  have hfresh : ∀ (bound : Nat) {grown : Registry α}, Grows policy bound registry grown →
      ∀ node : Node α, later = (grown.define step.name node).2 → registry.Shares name := by
    intro bound grown hgrows node hlater
    have hbounded := (h.grows hgrows).bounded
    rw [hlater, Registry.find?_define] at hname hother
    by_cases hfirst : name = step.name
    · rw [if_pos hfirst] at hname
      rw [if_neg fun hsecond => hne (hsecond.trans hfirst.symm)] at hother
      cases hname
      exact absurd (hbounded other _ hother) (Nat.lt_irrefl _)
    · rw [if_neg hfirst] at hname
      split at hother
      next =>
        cases hother
        exact absurd (hbounded name _ hname) (Nat.lt_irrefl _)
      next => exact h.shares_of_grows hgrows (Registry.shares_of_find?_eq hne hname hother)
  cases hstep with
  | @terminal first value => exact .inl (hfresh 0 .refl (.leaf value) rfl)
  | @compile first text id _ hbuilt =>
    cases hbuilt with
    | composite _ hgrows _ => exact .inl (hfresh _ hgrows _ rfl)
    | bare hread hgrows hfound =>
      rw [Registry.find?_install] at hname hother
      by_cases hends : name = first ∨ name = text
      · exact .inr ⟨text, rfl, hread, hends⟩
      · obtain ⟨hfirst, htext⟩ := not_or.mp hends
        rw [if_neg hfirst] at hname
        split at hother
        next =>
          cases hother
          exact .inl (h.shares_of_grows hgrows
            (Registry.shares_of_find?_eq (fun heq => htext heq.symm) hname hfound))
        next =>
          exact .inl (h.shares_of_grows hgrows (Registry.shares_of_find?_eq hne hname hother))

/-- No step gives a name a new meaning while another name shares its node. -/
def Unshared (policy : LiteralPolicy α) (settings : Settings) (entropy : Twister)
    (steps : List (Step α)) : Prop :=
  ∀ earlier step, earlier ++ [step] <+: steps →
    (Session.after policy settings entropy earlier).Redefines step step.name →
    ¬(Session.after policy settings entropy earlier).registry.Shares step.name

namespace Unshared

variable {policy : LiteralPolicy α} {settings : Settings} {entropy : Twister}
variable {earlier : List (Step α)} {step : Step α}

theorem nil : Unshared policy settings entropy [] := by
  intro earlier step hinitial
  simp at hinitial

theorem of_concat (h : Unshared policy settings entropy (earlier ++ [step])) :
    Unshared policy settings entropy earlier :=
  fun before last hinitial => h before last (hinitial.trans (List.prefix_append earlier [step]))

theorem concat (h : Unshared policy settings entropy earlier)
    (hlast : ¬(Session.after policy settings entropy earlier).registry.Shares step.name) :
    Unshared policy settings entropy (earlier ++ [step]) := by
  intro before last hinitial
  rcases List.prefix_concat_iff.mp hinitial with heq | hbefore
  · obtain ⟨rfl, hsame⟩ := List.append_inj' heq rfl
    cases hsame
    exact fun _ => hlast
  · exact h before last hbefore

theorem leader_eq {steps : List (Step α)} (h : Unshared policy settings entropy steps)
    (name reference : String) :
    Session.leader policy settings entropy steps name reference = reference := by
  induction steps using List.reverseRecOn with
  | nil => rfl
  | append_singleton earlier step ih =>
    have hheld :
        (if (Session.after policy settings entropy earlier).Redefines step name then reference
        else (Session.after policy settings entropy earlier).registry.renew
          (Session.leader policy settings entropy earlier) name reference) = reference := by
      unfold Registry.renew
      split
      next => rfl
      next =>
        split
        next => rfl
        next => exact ih h.of_concat
    rw [Session.leader_concat]
    unfold Session.leaderAfter
    rw [hheld]
    refine Registry.handOver_of_not_parts ?_
    rintro ⟨hne, id, hname, hother, hafter⟩
    rcases (Session.after policy settings entropy earlier).perform_cases step with
      ⟨hredefines, _, _⟩ | ⟨_, _, bound, hgrows⟩
    · exact h earlier step List.prefix_rfl hredefines
        (Registry.shares_of_find?_eq hne hname hother)
    · exact hafter (hgrows.find?_eq_some hname)

/-- In every state the nodes stand for the meanings of their names. -/
theorem exists_meant (htext : policy.DependsOnText) {steps : List (Step α)}
    (h : Unshared policy settings entropy steps) :
    ∃ rank, Meant rank (policy.answer []) (Session.after policy settings entropy steps).table
      (Session.after policy settings entropy steps).registry := by
  induction steps using List.reverseRecOn with
  | nil => exact ⟨fun _ => 0, by rintro _ _ ⟨⟩⟩
  | append_singleton earlier step ih =>
    obtain ⟨rank, hmeant⟩ := ih h.of_concat
    have hwired := wired_after policy settings entropy earlier
    have hpolicy := (Session.policy_settings_after policy settings entropy earlier).1
    rw [Session.after_concat]
    rcases (Session.after policy settings entropy earlier).perform_cases step with
      ⟨hredefines, htable, hdefines⟩ | ⟨_, htable, bound, hgrows⟩
    · rw [htable]
      rw [hpolicy] at hdefines
      exact hmeant.defines hwired htext hdefines hredefines.2.2
        (h earlier step List.prefix_rfl hredefines)
    · rw [htable]
      rw [hpolicy] at hgrows
      exact ⟨rank, hmeant.grows hwired htext hgrows⟩

end Unshared

end StochasticGrammar
