import Workflow.Proofs.Alike
import Workflow.Proofs.Visits

/-!
# Declaration order

Two systems of the same nodes, links and joins may visit their nodes in different orders. Both are
ready orders, and of two ready orders one is turned into the other by exchanging neighbours that
are due at the same time. Neither of those is reached from the other, so neither has a say in
whether the other runs; when bodies of such nodes commute, the order leaves no trace.
-/

namespace Workflow

set_option autoImplicit false

section Erase
variable {links : List Link} {done ns : List Node} {n : Node}

theorem ReadyOrder.erase (h : ReadyOrder links done ns) (hn : Ready links done n) :
    ReadyOrder links (done ++ [n]) (ns.erase n) := by
  induction ns generalizing done with
  | nil => trivial
  | cons m ns ih =>
    obtain ⟨⟨hm, hr⟩, hns⟩ := h
    by_cases he : m = n
    · subst he
      rw [List.erase_cons_head]
      exact hns
    · rw [List.erase_cons_tail (by simpa using he)]
      have hsub : ∀ i ∈ done, i ∈ done ++ [n] := fun i hi => List.mem_append_left _ hi
      refine ⟨⟨by simp [hm, he], hr.mono hsub⟩, ?_⟩
      have hrest := ih hns (hn.mono fun i hi => List.mem_append_left _ hi)
      apply hrest.congr
      intro i
      simp only [List.mem_append, List.mem_singleton]
      exact or_right_comm

end Erase

/-- Bodies that leave the order open: they do the same on alike contexts, and those of two nodes
commute when no links lead from either node to the other. -/
structure OrderFree (nodes : List Node) (links : List Link) (body : Node → Body) : Prop where
  respects : ∀ n ∈ nodes, (body n).Respects
  commutes : ∀ m ∈ nodes, ∀ n ∈ nodes, ¬ Reaches links m n → ¬ Reaches links n m →
    (body m).Commutes (body n)

structure Stage.Alike (s t : Stage) : Prop where
  context : s.context.Alike t.context
  report : s.report.Alike t.report

theorem Stage.Alike.refl (s : Stage) : s.Alike s := ⟨.refl _, .refl _⟩

theorem Stage.Alike.trans {s t u : Stage} (h : s.Alike t) (h' : t.Alike u) : s.Alike u :=
  ⟨h.context.trans h'.context, h.report.trans h'.report⟩

namespace Draft
variable {d : Draft} {body : Node → Body} {m n : Node} {ns ms : List Node} {s s' t : Stage}

theorem settle_of_resolve_eq {b : Body} (h : d.resolve body s.report n = b) :
    d.settle body n s =
      ((b s.context).1, ⟨(b s.context).2, s.report.insert n (b s.context).1⟩) := by
  subst h
  rfl

theorem settle_alike (hn : (body n).Respects) (h : s.Alike s')
    (ho : (d.settle body n s).1.isAbort = false) :
    (d.settle body n s').1.isAbort = false ∧
      (d.settle body n s).2.Alike (d.settle body n s').2 := by
  have hres : d.resolve body s.report n = d.resolve body s'.report n := by
    apply resolve_congr (.refl _) rfl
    intro l _ _
    exact OrderedMap.alike_iff_get?.mp h.report l.source
  have hresp : (d.resolve body s.report n).Respects := respects_resolve hn
  obtain ⟨hsame, hctx⟩ := hresp s.context s'.context h.context
  have heq : (d.resolve body s.report n s.context).1 = (d.resolve body s.report n s'.context).1 :=
    Outcome.eq_of_same hsame ho
  rw [settle_of_resolve_eq hres.symm, settle_of_resolve_eq rfl]
  refine ⟨heq ▸ ho, hctx, ?_⟩
  dsimp only
  rw [← heq]
  exact h.report.insert n _

theorem perform_alike (hns : ∀ n ∈ ns, (body n).Respects) (h : s.Alike s')
    (hs : d.perform body ns s = (none, t)) :
    ∃ t', d.perform body ns s' = (none, t') ∧ t.Alike t' := by
  induction ns generalizing s s' with
  | nil =>
    cases hs
    exact ⟨s', rfl, h⟩
  | cons n ns ih =>
    obtain ⟨ho, hrest⟩ := perform_cons_eq_none_iff.mp hs
    obtain ⟨ho', halike⟩ := settle_alike (hns n List.mem_cons_self) h ho
    obtain ⟨t', ht', hall⟩ := ih (fun k hk => hns k (List.mem_cons_of_mem n hk)) halike hrest
    exact ⟨t', perform_cons_eq_none_iff.mpr ⟨ho', ht'⟩, hall⟩

theorem resolve_settle (body : Node → Body) (hm : m ∉ s.report.keys)
    (hn : Ready d.links s.report.keys n) :
    d.resolve body (d.settle body m s).2.report n = d.resolve body s.report n := by
  apply resolve_congr (.refl _) rfl
  intro l hl ht
  exact get?_settle_of_mem d body hm (hn l hl ht)

/-- Two nodes that are due at the same time can be settled in either order. -/
theorem settle_comm (hne : m ≠ n) (hm : Due d.links s.report.keys m)
    (hn : Due d.links s.report.keys n)
    (hcomm : (body m).Commutes (body n)) (hom : (d.settle body m s).1.isAbort = false)
    (hon : (d.settle body n (d.settle body m s).2).1.isAbort = false) :
    (d.settle body n s).1.isAbort = false ∧
      (d.settle body m (d.settle body n s).2).1.isAbort = false ∧
        (d.settle body n (d.settle body m s).2).2.Alike
          (d.settle body m (d.settle body n s).2).2 := by
  have hcomm' : (d.resolve body s.report m).Commutes (d.resolve body s.report n) :=
    commutes_resolve hcomm
  obtain ⟨hsame, hsame', hctx⟩ := hcomm' s.context
  rw [settle_of_resolve_eq (resolve_settle body hm.1 hn.2)] at hon ⊢
  rw [settle_of_resolve_eq (resolve_settle body hn.1 hm.2)]
  have hn' := Outcome.eq_of_same hsame' hon
  have hm' := Outcome.eq_of_same hsame hom
  refine ⟨hn' ▸ hon, hm' ▸ hom, hctx, ?_⟩
  dsimp only [settle]
  rw [← hn', ← hm']
  exact OrderedMap.insert_insert_alike s.report hne _ _

section Exchange
variable {nodes : List Node} (hbody : OrderFree nodes d.links body)
include hbody

theorem perform_swap (hclosed : Closed d.links s.report.keys) (hne : m ≠ n)
    (hmem : m ∈ nodes) (hmem' : n ∈ nodes) (hns : ∀ k ∈ ns, k ∈ nodes)
    (hm : Due d.links s.report.keys m) (hn : Due d.links s.report.keys n)
    (h : d.perform body (m :: n :: ns) s = (none, t)) :
    ∃ t', d.perform body (n :: m :: ns) s = (none, t') ∧ t.Alike t' := by
  have hcomm : (body m).Commutes (body n) := by
    apply hbody.commutes m hmem n hmem'
    · exact hclosed.not_reaches hm.1 hn.2 hne
    · exact hclosed.not_reaches hn.1 hm.2 (Ne.symm hne)
  obtain ⟨hom, h⟩ := perform_cons_eq_none_iff.mp h
  obtain ⟨hon, h⟩ := perform_cons_eq_none_iff.mp h
  obtain ⟨hon', hom', halike⟩ := settle_comm hne hm hn hcomm hom hon
  obtain ⟨t', ht', hall⟩ := perform_alike (fun k hk => hbody.respects k (hns k hk)) halike h
  refine ⟨t', ?_, hall⟩
  exact perform_cons_eq_none_iff.mpr ⟨hon', perform_cons_eq_none_iff.mpr ⟨hom', ht'⟩⟩

theorem perform_to_front (hclosed : Closed d.links s.report.keys) (hns : ∀ k ∈ ns, k ∈ nodes)
    (horder : ReadyOrder d.links s.report.keys ns) (hn : n ∈ ns)
    (hr : Ready d.links s.report.keys n) (h : d.perform body ns s = (none, t)) :
    ∃ t', d.perform body (n :: ns.erase n) s = (none, t') ∧ t.Alike t' := by
  induction ns generalizing s t with
  | nil => cases hn
  | cons m ns ih =>
    obtain ⟨hm, hrest⟩ := horder
    by_cases he : m = n
    · subst he
      rw [List.erase_cons_head]
      exact ⟨t, h, .refl t⟩
    · have hmem : n ∈ ns := (List.mem_cons.mp hn).resolve_left (Ne.symm he)
      have hnew : n ∉ s.report.keys := fun hk => hrest.notMem n hmem (List.mem_append_left _ hk)
      have hk := keys_settle d body hm.1
      obtain ⟨ho, h⟩ := perform_cons_eq_none_iff.mp h
      -- bring it to the front of the rest, then past the first
      obtain ⟨t₁, ht₁, halike₁⟩ := ih (hk ▸ hclosed.concat hm.2)
        (fun k hk => hns k (List.mem_cons_of_mem m hk)) (hk ▸ hrest) hmem
        (hk ▸ hr.mono fun k hk => List.mem_append_left _ hk) h
      have htail : ∀ k ∈ ns, k ∈ nodes := fun k hk => hns k (List.mem_cons_of_mem m hk)
      obtain ⟨t₂, ht₂, halike₂⟩ := perform_swap hbody hclosed he (hns m List.mem_cons_self)
        (htail n hmem) (fun k hk => htail k (List.mem_of_mem_erase hk)) hm ⟨hnew, hr⟩
        (perform_cons_eq_none_iff.mpr ⟨ho, ht₁⟩)
      rw [List.erase_cons_tail (by simpa using he)]
      exact ⟨t₂, ht₂, halike₁.trans halike₂⟩

/-- Ready orders of the same nodes come to the same when performed. -/
theorem perform_perm (hclosed : Closed d.links s.report.keys) (hns : ∀ k ∈ ns, k ∈ nodes)
    (horder : ReadyOrder d.links s.report.keys ns) (horder' : ReadyOrder d.links s.report.keys ms)
    (hperm : ns.Perm ms) (h : d.perform body ns s = (none, t)) :
    ∃ t', d.perform body ms s = (none, t') ∧ t.Alike t' := by
  induction ms generalizing ns s t with
  | nil =>
    rw [List.Perm.eq_nil hperm] at h
    exact ⟨t, h, .refl t⟩
  | cons n ms ih =>
    obtain ⟨⟨hn, hr⟩, hrest⟩ := horder'
    have hmem : n ∈ ns := hperm.mem_iff.mpr List.mem_cons_self
    obtain ⟨t₁, ht₁, halike₁⟩ := perform_to_front hbody hclosed hns horder hmem hr h
    obtain ⟨ho, ht₁⟩ := perform_cons_eq_none_iff.mp ht₁
    have hk := keys_settle d body hn
    have hperm' : (ns.erase n).Perm ms :=
      ((List.perm_cons_erase hmem).symm.trans hperm).cons_inv
    obtain ⟨t₂, ht₂, halike₂⟩ := ih (hk ▸ hclosed.concat hr)
      (fun k hk => hns k (List.mem_of_mem_erase hk)) (hk ▸ horder.erase hr) (hk ▸ hrest)
      hperm' ht₁
    exact ⟨t₂, perform_cons_eq_none_iff.mpr ⟨ho, ht₂⟩, halike₁.trans halike₂⟩

end Exchange

theorem perform_congr {e : Draft} (hlinks : d.links.Perm e.links)
    (hjoins : ∀ n ∈ ns, d.joinOf n = e.joinOf n) (body : Node → Body) (s : Stage) :
    d.perform body ns s = e.perform body ns s := by
  apply perform_congr_of_resolve
  intro n hn r
  exact resolve_congr (incoming_perm hlinks) (hjoins n hn) body fun _ _ _ => rfl

end Draft

namespace Run
variable {p q : Plan} {body : Node → Body} {c c' : Context}

/-- Two plans of the same nodes, links and joins, declared in any order, run from alike contexts
with bodies that leave the order open: when one run completes, so does the other, with the same
outcome for every node and alike contexts at the end. -/
theorem compute_reordered (hnodes : ∀ n, n ∈ p.nodes ↔ n ∈ q.nodes)
    (hlinks : p.links.Perm q.links) (hjoins : ∀ n ∈ p.nodes, p.joinOf n = q.joinOf n)
    (hbody : OrderFree p.nodes p.links body) (hc : c.Alike c')
    (hok : (compute body (ofPlan p c)).1 = .ok ()) :
    (compute body (ofPlan q c')).1 = .ok () ∧
      (∀ n, (compute body (ofPlan p c)).2.report.get? n =
        (compute body (ofPlan q c')).2.report.get? n) ∧
      (compute body (ofPlan p c)).2.context.Alike (compute body (ofPlan q c')).2.context := by
  obtain ⟨a, t, hperform, hresult, hstage⟩ := compute_ofPlan p body c
  obtain ⟨b, u, hperform', hresult', hstage'⟩ := compute_ofPlan q body c'
  have hnone : a = none := by
    cases a with
    | none => rfl
    | some a => rw [hok] at hresult; cases hresult
  subst hnone
  have hmem : ∀ n ∈ visitOrder p.nodes p.links, n ∈ p.nodes := fun n hn => p.mem_visitOrder.mp hn
  have hmem' : ∀ n ∈ visitOrder q.nodes q.links, n ∈ p.nodes := by
    intro n hn
    exact (hnodes n).mpr (q.mem_visitOrder.mp hn)
  have horder' : ReadyOrder p.links [] (visitOrder q.nodes q.links) :=
    (visitOrder_readyOrder q.nodes q.links).of_perm hlinks.symm
  have hperm : (visitOrder p.nodes p.links).Perm (visitOrder q.nodes q.links) := by
    apply (List.perm_ext_iff_of_nodup (visitOrder_readyOrder _ _).nodup horder'.nodup).mpr
    intro n
    rw [p.mem_visitOrder, q.mem_visitOrder, hnodes]
  -- from one visit order to the other, then from one context to the other
  have hclosed : Closed p.links (Stage.ofContext c).report.keys := by
    intro n hn
    cases hn
  have hstart : (Stage.ofContext c).Alike (Stage.ofContext c') := ⟨hc, .refl _⟩
  obtain ⟨t₁, ht₁, halike₁⟩ := Draft.perform_perm hbody hclosed hmem
    (visitOrder_readyOrder p.nodes p.links) horder' hperm hperform
  obtain ⟨t₂, ht₂, halike₂⟩ := Draft.perform_alike (fun n hn => hbody.respects n (hmem' n hn))
    hstart ht₁
  rw [Draft.perform_congr hlinks fun n hn => hjoins n (hmem' n hn)] at ht₂
  have heq : (b, u) = (none, t₂) := hperform'.symm.trans ht₂
  cases heq
  have hall : t.Alike u := halike₁.trans halike₂
  rw [← hstage, ← hstage'] at hall
  exact ⟨hresult', OrderedMap.alike_iff_get?.mp hall.report, hall.context⟩

end Run

namespace Sample

def joins : OrderedMap Node Join := (∅ : OrderedMap Node Join).insert check .all

def plan : Plan := Draft.compile ⟨nodes, links, joins⟩ sound

/-- The same plan, declared from its end. -/
def mirrored : Plan := Draft.compile ⟨nodes.reverse, links.reverse, joins⟩ (by decide +kernel)

/-- Every node leaves its name in the context, except that `check` asks whether `left` did. -/
def body (n : Node) : Body :=
  if n = check then .decision fun c => .ok (Context.haveKey c "left")
  else .action fun c => (.ok (), Context.store c n.name .null)

theorem body_isAbort (n : Node) (c : Context) : (body n c).1.isAbort = false := by
  unfold body
  split <;> rfl

theorem body_respects (n : Node) : (body n).Respects := by
  intro c d h
  unfold body
  split
  · have hkey : Context.haveKey c "left" = Context.haveKey d "left" := by
      rw [Context.haveKey_eq_isSome, Context.haveKey_eq_isSome]
      exact congrArg Option.isSome (OrderedMap.alike_iff_get?.mp h "left")
    simp only [Body.decision, hkey]
    exact ⟨Outcome.same_refl _, h⟩
  · exact ⟨rfl, h.insert _ _⟩

/-- Two nodes that leave their names commute; a name left twice is left once. -/
theorem body_commutes {m n : Node} (hm : m ≠ check) (hn : n ≠ check) :
    (body m).Commutes (body n) := by
  intro c
  unfold body
  rw [if_neg hm, if_neg hn]
  refine ⟨rfl, rfl, ?_⟩
  by_cases h : m.name = n.name
  · rw [h]
    exact .refl _
  · exact OrderedMap.insert_insert_alike c h _ _

/-- Nothing happens side by side with `check`. -/
theorem check_comparable : ∀ n ∈ nodes, Reaches links n check ∨ Reaches links check n := by
  have hleft : Linked links left check := by decide
  have hright : Linked links right check := by decide
  have hfetch : Linked links fetch left := by decide
  have hship : Linked links check ship := by decide
  have hdrop : Linked links check drop := by decide
  intro n hn
  simp only [nodes, List.mem_cons, List.not_mem_nil, or_false] at hn
  rcases hn with rfl | rfl | rfl | rfl | rfl | rfl
  · exact .inl (.head hfetch (.single hleft))
  · exact .inl (.single hleft)
  · exact .inl (.single hright)
  · exact .inl .refl
  · exact .inr (.single hship)
  · exact .inr (.single hdrop)

theorem body_orderFree : OrderFree nodes links body := by
  refine ⟨fun n _ => body_respects n, ?_⟩
  intro m hm n hn hmn hnm
  apply body_commutes
  · intro he
    subst he
    exact (check_comparable n hn).elim hnm hmn
  · intro he
    subst he
    exact (check_comparable m hm).elim hmn hnm

def context : Context := (OrderedMap.insert ∅ "stock" (.int 3)).insert "batch" (.bool true)

def swapped : Context := (OrderedMap.insert ∅ "batch" (.bool true)).insert "stock" (.int 3)

theorem alike : context.Alike swapped := OrderedMap.insert_insert_alike ∅ (by decide) _ _

end Sample

open Sample in
theorem compute_reordered_sample :
    ((∀ n, n ∈ plan.nodes ↔ n ∈ mirrored.nodes) ∧ plan.links.Perm mirrored.links ∧
      (∀ n ∈ plan.nodes, plan.joinOf n = mirrored.joinOf n) ∧
      OrderFree plan.nodes plan.links body ∧ context.Alike swapped ∧
      (Run.compute body (.ofPlan plan context)).1 = .ok ()) ∧
    (Run.compute body (.ofPlan mirrored swapped)).1 = .ok () ∧
      (∀ n, (Run.compute body (.ofPlan plan context)).2.report.get? n =
        (Run.compute body (.ofPlan mirrored swapped)).2.report.get? n) ∧
      (Run.compute body (.ofPlan plan context)).2.context.Alike
        (Run.compute body (.ofPlan mirrored swapped)).2.context := by
  have hnodes : ∀ n, n ∈ plan.nodes ↔ n ∈ mirrored.nodes := fun n => List.mem_reverse.symm
  have hlinks : plan.links.Perm mirrored.links := (List.reverse_perm links).symm
  have hok : (Run.compute body (.ofPlan plan context)).1 = .ok () :=
    Run.compute_eq_ok plan body context fun n _ c => body_isAbort n c
  exact ⟨⟨hnodes, hlinks, fun _ _ => rfl, body_orderFree, alike, hok⟩,
    Run.compute_reordered hnodes hlinks (fun _ _ => rfl) body_orderFree alike hok⟩

end Workflow
