import Semora.Proofs.Writing

/-! One writer's `record`, `rewind` and `forget` calls, and what a reader then sees. A tombstone is
permanent, and a message recorded again where it was forgotten lands on the buried entry. -/

namespace Semora.Proofs.Forgotten
open Semora.Lib Semora.Store Semora.Transcript

/-! The calls. -/

inductive Edit
  | record (message : ModelMessage)
  | rewind (leafUuid : Option Uuid)
  | forget (deletedUuid : Uuid)

/-- The call, without its reply. -/
def Edit.program (c : String) : Edit → Program Unit
  | .record m => do
    let _ ← Transcript.record c m
    return ()
  | .rewind leaf => Transcript.rewind c leaf
  | .forget deleted => Transcript.forget c deleted

/-- The scene after the writer of attempt `i` made the call. -/
def Edit.done (out : Outside) (c : String) (i : Nat) (s : Scene) (e : Edit) : Scene :=
  ((e.program c).eval (Scene.perform out id i) s).2

/-- What a call reads: the conversation, the writer's chain position and the clock. -/
structure Place where
  entries : List Entry
  parentUuid : Option Uuid
  instant : Nat

def place (c : String) (i : Nat) (s : Scene) : Place :=
  ⟨s.world.transcript.read c, (s.attempts i).branch.parentUuid, s.world.instant⟩

/-- The entries after one more append, which a uuid they hold absorbs. -/
def grown (entries : List Entry) (e : Entry) : List Entry :=
  if entries.any (fun old => old.uuid = e.uuid) then entries else entries ++ [e]

/-- The entry a message is recorded as. -/
def Place.entry (c : String) (p : Place) (m : ModelMessage) : Entry :=
  messageEntry m c p.parentUuid (p.instant + 1)

/-- What a call makes of its place. A marker takes two operations, a message four of its own. -/
def Place.after (c : String) (p : Place) : Edit → Place
  | .record m =>
    if p.entries.any (fun old => old.uuid = (p.entry c m).uuid) then
      { entries := grown p.entries (leafEntry c (some (p.entry c m).uuid) (p.instant + 4))
        parentUuid := some (p.entry c m).uuid, instant := p.instant + 6 }
    else
      { entries := p.entries ++ [p.entry c m]
        parentUuid := some (p.entry c m).uuid, instant := p.instant + 4 }
  | .rewind leaf =>
    { entries := grown p.entries (leafEntry c leaf p.instant)
      parentUuid := leaf, instant := p.instant + 3 }
  | .forget deleted =>
    { entries := grown p.entries (tombstoneEntry c deleted p.instant)
      parentUuid := p.parentUuid, instant := p.instant + 2 }

theorem grown_old {entries : List Entry} {e : Entry}
    (h : entries.any (fun old => old.uuid = e.uuid) = true) : grown entries e = entries :=
  if_pos h

theorem grown_new {entries : List Entry} {e : Entry}
    (h : entries.any (fun old => old.uuid = e.uuid) = false) : grown entries e = entries ++ [e] :=
  if_neg (by simp [h])

theorem read_append (t : MemoryTranscript) (e : Entry) :
    (t.append e).1 = !(t.read e.conversationId).any (fun old => old.uuid = e.uuid) ∧
      (t.append e).2.read e.conversationId = grown (t.read e.conversationId) e := by
  by_cases hold : ∃ old ∈ t.read e.conversationId, old.uuid = e.uuid
  · have hany : (t.read e.conversationId).any (fun old => old.uuid = e.uuid) = true := by
      simpa using hold
    simp [MemoryTranscript.append_old t hold, grown, hany]
  · have hany : (t.read e.conversationId).any (fun old => old.uuid = e.uuid) = false := by
      simpa using hold
    simp only [not_exists, not_and] at hold
    obtain ⟨h₁, -, h₂⟩ := MemoryTranscript.append_new t hold
    simp [h₁, h₂, grown, hany]

section
variable (out : Outside) (c : String) (i : Nat) (s : Scene)

/-- A marker alone: the conversation grows by it, and its writer stays where it is. -/
theorem marked (e : Nat → Entry) (he : ∀ n, (e n).conversationId = c) :
    ∃ s', Prog.eval (Scene.perform out id i)
        (do let instant ← now; let _ ← Semora.perform (.append (e instant)); return ()) s =
        (.ok (), s') ∧
      place c i s' = { place c i s with
        entries := grown (place c i s).entries (e s.world.instant)
        instant := s.world.instant + 2 } := by
  have h := (read_append s.world.transcript (e s.world.instant)).2
  rw [he] at h
  refine ⟨_, rfl, ?_⟩
  simp [place, Scene.perform, step, h]

/-- The scene in which a recorded message has been appended and the writer moved on to it. -/
def recorded (m : ModelMessage) : Scene :=
  let asked := ((s.perform out id i .get).2.perform out id i .now).2
  let e := (place c i s).entry c m
  ((asked.perform out id i (.append e)).2.perform out id i (.modify (setParent (some e.uuid)))).2

theorem place_recorded (m : ModelMessage) : place c i (recorded out c i s m) =
    { entries := grown (place c i s).entries ((place c i s).entry c m)
      parentUuid := some ((place c i s).entry c m).uuid, instant := s.world.instant + 4 } := by
  have h := (read_append s.world.transcript ((place c i s).entry c m)).2
  refine congrArg₂ (fun entries parent => Place.mk entries parent _) h ?_
  simp [recorded, Scene.perform, step, setParent]

theorem record_eval (m : ModelMessage) : (Edit.record m).done out c i s =
    ((relink c (s.world.transcript.append ((place c i s).entry c m)).1
      ((place c i s).entry c m).uuid).eval (Scene.perform out id i) (recorded out c i s m)).2 := by
  generalize hp : (s.world.transcript.append ((place c i s).entry c m)).1 = fresh
  have hall : (Edit.record m).done out c i s =
      ((((relink c fresh ((place c i s).entry c m).uuid).bind (fun _ => .ret fresh)).bind
        (fun _ => .ret ())).eval (Scene.perform out id i) (recorded out c i s m)).2 := by
    rw [← hp]
    rfl
  rw [hall, Prog.eval_bind, Prog.eval_bind]
  rcases (relink c fresh _).eval (Scene.perform out id i) (recorded out c i s m) with ⟨_ | _, s'⟩
  · rfl
  · rfl

/-- A call does to the scene what it makes of its place. -/
theorem place_done (e : Edit) : place c i (e.done out c i s) = (place c i s).after c e := by
  cases e with
  | record m =>
    have hfresh : (s.world.transcript.append ((place c i s).entry c m)).1 =
        !(place c i s).entries.any (fun old => old.uuid = ((place c i s).entry c m).uuid) :=
      (read_append s.world.transcript ((place c i s).entry c m)).1
    have hplace := place_recorded out c i s m
    rw [record_eval, hfresh]
    simp only [Place.after, relink]
    cases hany : (place c i s).entries.any
        (fun old => old.uuid = ((place c i s).entry c m).uuid) with
    | true =>
      obtain ⟨s₁, heval, hmarked⟩ := marked out c i (recorded out c i s m)
        (fun n => leafEntry c (some ((place c i s).entry c m).uuid) n) (fun _ => rfl)
      have hinstant : (recorded out c i s m).world.instant = s.world.instant + 4 :=
        congrArg Place.instant hplace
      have hrewound := congrArg Prod.snd heval
      rw [hplace, grown_old hany, hinstant] at hmarked
      simp only [Bool.not_true, Bool.false_eq_true, ↓reduceIte]
      exact (congrArg (place c i) hrewound).trans hmarked
    | false =>
      rw [grown_new hany] at hplace
      simp only [Bool.not_false, Bool.false_eq_true, ↓reduceIte]
      exact hplace
  | rewind leaf =>
    obtain ⟨s₁, heval, hplace⟩ := marked out c i s (fun n => leafEntry c leaf n) (fun _ => rfl)
    have hdone : (Edit.rewind leaf).done out c i s =
        (s₁.perform out id i (.modify (setParent leaf))).2 := by
      simp only [Edit.done, Edit.program, Transcript.rewind, appendLeaf, Prog.bind_eq,
        Prog.eval_bind] at heval ⊢
      rw [heval]
      rfl
    rw [hdone]
    simp only [place, Scene.perform, step, Function.update_self, id, setParent, Place.after,
      Place.mk.injEq] at hplace ⊢
    obtain ⟨hentries, -, hinstant⟩ := hplace
    exact ⟨hentries, trivial, by omega⟩
  | forget deleted =>
    obtain ⟨s₁, heval, hplace⟩ := marked out c i s (fun n => tombstoneEntry c deleted n)
      (fun _ => rfl)
    simp only [Edit.done, Edit.program, Transcript.forget, heval, hplace]
    rfl

end

/-! Conversations with tombstones. -/

/-- The identifiers of a chain, from its first entry; a marker has none. -/
def chain : Uuid → List Uuid
  | .first b => [.first b]
  | .after parent b => chain parent ++ [.after parent b]
  | _ => []

def chainTo : Option Uuid → List Uuid
  | none => []
  | some uuid => chain uuid

theorem chainTo_entryId (parent : Option Uuid) (b : Json) :
    chainTo (some (entryId parent b)) = chainTo parent ++ [entryId parent b] := by
  cases parent <;> rfl

/-- Whatever stands in a chain has a chain no longer than the whole. -/
theorem chain_length {uuid v : Uuid} (h : v ∈ chain uuid) :
    (chain v).length ≤ (chain uuid).length := by
  induction uuid with
  | first b => simp [List.mem_singleton.mp h]
  | after parent b ih =>
    rcases List.mem_append.mp h with h | h
    · have := ih h
      simp only [chain, List.length_append, List.length_singleton]
      omega
    · simp [List.mem_singleton.mp h]
  | rewound n leaf => cases h
  | reset n => cases h
  | tombstone deleted => cases h

theorem chain_nodup (uuid : Uuid) : (chain uuid).Nodup := by
  induction uuid with
  | first b => simp [chain]
  | after parent b ih =>
    have hnew : .after parent b ∉ chain parent := by
      intro hmem
      have := chain_length hmem
      simp only [chain, List.length_append, List.length_singleton] at this
      omega
    simp only [chain, List.nodup_append, List.mem_singleton]
    refine ⟨ih, by simp, ?_⟩
    intro v hv b hb heq
    exact hnew (hb ▸ heq ▸ hv)
  | rewound n leaf => simp [chain]
  | reset n => simp [chain]
  | tombstone deleted => simp [chain]

/-- What an entry of a conversation is: a message under an entry or under none, a move of the tip
made at an earlier instant, or a burial. -/
inductive Held (known : List Uuid) (n : Nat) (e : Entry) : Prop
  | message (parent : Option Uuid) (m : ModelMessage) (hparent : e.parentUuid = some parent)
      (hmessage : e.message = some m) (htype : e.type = .message)
      (hid : e.uuid = entryId parent (body m)) (hold : ∀ p, parent = some p → p ∈ known)
  | leaf (t : Nat) (ht : t < n) (hparent : e.parentUuid = none) (htype : e.type = .leaf)
      (hid : e.uuid = .reset t ∨ ∃ u, e.uuid = .rewound t u)
      (hold : ∀ u, e.leafUuid = some u → u ∈ known)
  | tombstone (u : Uuid) (hparent : e.parentUuid = none) (htype : e.type = .tombstone)
      (hid : e.uuid = .tombstone u) (hdeleted : e.deletedUuid = some u)

/-- A conversation as writers leave it before an instant, tombstones and all. -/
def Kept (n : Nat) (entries : List Entry) : Prop :=
  ∀ e ∈ entries, Held (entries.map Entry.uuid) n e

section
variable {n : Nat} {entries : List Entry} {uuid : Uuid} {e : Entry}

theorem Held.mono {known known' : List Uuid} {n' : Nat} (h : Held known n e)
    (hknown : known ⊆ known') (hn : n ≤ n') : Held known' n' e := by
  cases h with
  | message parent m hparent hmessage htype hid hold =>
    exact .message parent m hparent hmessage htype hid (fun p hp => hknown (hold p hp))
  | leaf t ht hparent htype hid hold =>
    exact .leaf t (by omega) hparent htype hid (fun u hu => hknown (hold u hu))
  | tombstone u hparent htype hid hdeleted => exact .tombstone u hparent htype hid hdeleted

theorem Kept.mono {n' : Nat} (h : Kept n entries) (hn : n ≤ n') : Kept n' entries :=
  fun e he => (h e he).mono (List.Subset.refl _) hn

theorem Kept.append {n' : Nat} (h : Kept n entries) (hn : n ≤ n')
    (he : Held (entries.map Entry.uuid) n' e) : Kept n' (entries ++ [e]) := by
  have hknown : entries.map Entry.uuid ⊆ (entries ++ [e]).map Entry.uuid := by simp
  intro old hold
  rcases List.mem_append.mp hold with hold | hold
  · exact (h old hold).mono hknown hn
  · rw [List.mem_singleton.mp hold]
    exact he.mono hknown (Nat.le_refl _)

theorem Kept.entry (h : Kept n entries) (hc : chained entries uuid = some e) :
    e.uuid = uuid ∧ ∃ parent m, e.parentUuid = some parent ∧ e.message = some m ∧
      uuid = entryId parent (body m) ∧ ∀ p, parent = some p → p ∈ entries.map Entry.uuid := by
  have hu : e.uuid = uuid := by simpa using List.find?_some hc
  have hmem := List.mem_of_find?_eq_some hc
  simp only [List.mem_reverse, List.mem_filter] at hmem
  refine ⟨hu, ?_⟩
  cases h e hmem.1 with
  | message parent m hparent hmessage htype hid hold =>
    exact ⟨parent, m, hparent, hmessage, hu ▸ hid, hold⟩
  | leaf t ht hparent htype hid hold => simp [hparent] at hmem
  | tombstone u hparent htype hid hdeleted => simp [hparent] at hmem

/-- An identifier the conversation holds is a chained entry's, or a marker's. -/
theorem Kept.holds (h : Kept n entries) (hu : uuid ∈ entries.map Entry.uuid) :
    (∃ e, chained entries uuid = some e) ∨ chain uuid = [] := by
  obtain ⟨e, he, rfl⟩ := List.mem_map.mp hu
  cases h e he with
  | message parent m hparent hmessage htype hid hold =>
    left
    have hfind : (chained entries e.uuid).isSome := by
      simp only [chained, List.find?_isSome]
      exact ⟨e, by simp [he, hparent], by simp⟩
    exact Option.isSome_iff_exists.mp hfind
  | leaf t ht hparent htype hid hold =>
    right
    rcases hid with hid | ⟨u, hid⟩
    · rw [hid]
      rfl
    · rw [hid]
      rfl
  | tombstone u hparent htype hid hdeleted =>
    right
    rw [hid]
    rfl

/-- The conversation holds all of a chain it holds the end of. -/
theorem Kept.chain_subset (h : Kept n entries) (hu : uuid ∈ entries.map Entry.uuid) :
    chain uuid ⊆ entries.map Entry.uuid := by
  induction uuid with
  | first b => simpa [chain] using hu
  | after parent b ih =>
    have hparent : parent ∈ entries.map Entry.uuid := by
      rcases h.holds hu with ⟨e, hc⟩ | hnil
      · obtain ⟨-, parent', m, -, -, hid, hold⟩ := h.entry hc
        cases parent' with
        | none => cases hid
        | some p =>
          cases hid
          exact hold _ rfl
      · simp [chain] at hnil
    intro v hv
    rcases List.mem_append.mp hv with hv | hv
    · exact ih hparent hv
    · rw [List.mem_singleton.mp hv]
      exact hu
  | rewound n leaf => simp [chain]
  | reset n => simp [chain]
  | tombstone deleted => simp [chain]

theorem Kept.length (h : Kept n entries) (hu : uuid ∈ entries.map Entry.uuid) :
    (chain uuid).length ≤ entries.length := by
  have hle := (chain_nodup uuid).length_le_of_subset (h.chain_subset hu)
  simpa using hle

/-- Walking back from an entry passes its chain, less what is buried. -/
theorem Kept.walk (h : Kept n entries) (fuel : Nat) (seen : List Uuid)
    (hu : uuid ∈ entries.map Entry.uuid) (hf : (chain uuid).length ≤ fuel)
    (hs : ∀ s ∈ seen, (chain uuid).length < (chain s).length) :
    (Transcript.walk entries fuel (some uuid) seen).reverse.map Entry.uuid =
      (chain uuid).filter (fun v => !buried entries v) := by
  induction fuel generalizing uuid seen with
  | zero =>
    have hnil : chain uuid = [] := List.length_eq_zero_iff.mp (by omega)
    simp [Transcript.walk, hnil]
  | succ fuel ih =>
    have hnot : uuid ∉ seen := fun hmem => Nat.lt_irrefl _ (hs uuid hmem)
    cases hc : chained entries uuid with
    | none =>
      have hnil : chain uuid = [] := by
        rcases h.holds hu with ⟨e, he⟩ | hnil
        · simp [hc] at he
        · exact hnil
      simp [Transcript.walk, hnot, hc, hnil]
    | some e =>
      obtain ⟨he, parent, m, hp, hm, hid, hold⟩ := h.entry hc
      have hchain : chain uuid = chainTo parent ++ [uuid] := by
        rw [hid]
        exact chainTo_entryId parent (body m)
      have holder : (Transcript.walk entries fuel parent (uuid :: seen)).reverse.map Entry.uuid =
          (chainTo parent).filter (fun v => !buried entries v) := by
        cases parent with
        | none => cases fuel <;> rfl
        | some p =>
          have hlen : (chain uuid).length = (chain p).length + 1 := by simp [hchain, chainTo]
          refine ih (uuid :: seen) (hold p rfl) (by omega) ?_
          intro s hmem
          rcases List.mem_cons.mp hmem with rfl | hmem
          · omega
          · have := hs s hmem
            omega
      simp only [Transcript.walk, hnot, ↓reduceIte, hc, hp, Option.getD_some, hchain,
        List.filter_append]
      cases hb : buried entries uuid with
      | true => simp [holder, hb]
      | false => simp [holder, hb, he]

theorem tipBack_named {entries : List Entry} (h : tipBack entries = some uuid) :
    ∃ e ∈ entries, e.uuid = uuid ∨ (e.type = .leaf ∧ e.leafUuid = some uuid) := by
  induction entries with
  | nil => cases h
  | cons e older ih =>
    simp only [tipBack] at h
    split at h
    · rename_i htype
      exact ⟨e, List.mem_cons_self, .inr ⟨htype, h⟩⟩
    · split at h
      · exact ⟨e, List.mem_cons_self, .inl (Option.some.inj h)⟩
      · obtain ⟨e', he', hu⟩ := ih h
        exact ⟨e', List.mem_cons_of_mem _ he', hu⟩

theorem Kept.tip (h : Kept n entries) (ht : Transcript.tip entries = some uuid) :
    uuid ∈ entries.map Entry.uuid := by
  obtain ⟨e, he, hu⟩ := tipBack_named ht
  rw [List.mem_reverse] at he
  rcases hu with rfl | ⟨htype, hleaf⟩
  · exact List.mem_map_of_mem he
  · cases h e he with
    | message parent m hparent hmessage htype' hid hold => simp [htype] at htype'
    | leaf t ht hparent htype' hid hold => exact hold uuid hleaf
    | tombstone u hparent htype' hid hdeleted => simp [htype] at htype'

/-- A reader sees the chain to the tip, less what is buried. -/
theorem Kept.visible (h : Kept n entries) :
    (activeBranch entries).map Entry.uuid =
      (chainTo (Transcript.tip entries)).filter (fun v => !buried entries v) := by
  unfold activeBranch
  cases ht : Transcript.tip entries with
  | none => cases entries <;> rfl
  | some uuid => exact h.walk _ [] (h.tip ht) (h.length (h.tip ht)) (by simp)

/-- The last message a reader sees is the tip's, unless it is buried. -/
theorem Kept.last (h : Kept n entries) {parent : Option Uuid} {m : ModelMessage}
    (ht : Transcript.tip entries = some (entryId parent (body m)))
    (hb : buried entries (entryId parent (body m)) = false) :
    ∃ m', (messagesOf entries).getLast? = some m' ∧ same m' m := by
  have hmem := h.tip ht
  rcases h.holds hmem with ⟨e, hc⟩ | hnil
  · obtain ⟨-, parent', m', -, hm, hid, -⟩ := h.entry hc
    have hbody : body m' = body m := by
      cases parent <;> cases parent' <;> simp_all [entryId]
    refine ⟨m', ?_, same_of_body hbody⟩
    obtain ⟨fuel, hfuel⟩ : ∃ fuel, entries.length = fuel + 1 := by
      cases entries with
      | nil => cases hmem
      | cons e entries => exact ⟨entries.length, rfl⟩
    simp [messagesOf, activeBranch, ht, hfuel, Transcript.walk, hc, hb, hm]
  · cases parent <;> simp [entryId, chain] at hnil

end

/-! What a call keeps of a conversation. -/

section
variable {p : Place}

/-- Something the conversation holds, or nothing. -/
def Known (entries : List Entry) (leaf : Option Uuid) : Prop :=
  ∀ uuid, leaf = some uuid → uuid ∈ entries.map Entry.uuid

/-- A rewind is to an existing entry or to none. -/
def Edit.Existing (entries : List Entry) : Edit → Prop
  | .rewind leaf => Known entries leaf
  | _ => True

/-- A place from which a writer may go on. -/
structure Place.Ready (p : Place) : Prop where
  kept : Kept p.instant p.entries
  known : Known p.entries p.parentUuid

/-- A marker made now is new. -/
theorem Kept.fresh_leaf {n : Nat} {entries : List Entry} (h : Kept n entries) (c : String)
    (leaf : Option Uuid) :
    grown entries (leafEntry c leaf n) = entries ++ [leafEntry c leaf n] := by
  apply grown_new
  rw [List.any_eq_false]
  intro e he hu
  have hu := of_decide_eq_true hu
  cases h e he with
  | message parent m hparent hmessage htype hid hold =>
    rw [hid] at hu
    cases parent <;> cases leaf <;> simp [entryId, leafEntry] at hu
  | leaf t ht hparent htype hid hold =>
    rcases hid with hid | ⟨u, hid⟩
    · rw [hid] at hu
      cases leaf <;> simp [leafEntry] at hu
      omega
    · rw [hid] at hu
      cases leaf <;> simp [leafEntry] at hu
      omega
  | tombstone u hparent htype hid hdeleted =>
    rw [hid] at hu
    cases leaf <;> simp [leafEntry] at hu

/-- Moving the tip: the conversation keeps what it buried. -/
theorem Kept.move {n : Nat} {entries : List Entry} (h : Kept n entries) (c : String)
    {leaf : Option Uuid} (hleaf : Known entries leaf) (n' : Nat) (hn : n < n') :
    Kept n' (grown entries (leafEntry c leaf n)) ∧
      entries.map Entry.uuid ⊆ (grown entries (leafEntry c leaf n)).map Entry.uuid ∧
      Transcript.tip (grown entries (leafEntry c leaf n)) = leaf ∧
      ∀ u, buried (grown entries (leafEntry c leaf n)) u = buried entries u := by
  rw [h.fresh_leaf c leaf]
  refine ⟨h.append (by omega) ?_, by simp, tip_append_leaf rfl, ?_⟩
  · refine .leaf n hn rfl rfl ?_ hleaf
    cases leaf <;> simp [leafEntry]
  · intro u
    simp [buried, leafEntry]

/-- What every call but a burial leaves: a place to go on from whose reader's tip is the writer's,
with as much buried as before. -/
structure Place.Moved (p p' : Place) : Prop where
  ready : p'.Ready
  tip : Transcript.tip p'.entries = p'.parentUuid
  buried : ∀ u, Transcript.buried p'.entries u = Transcript.buried p.entries u

theorem Place.Ready.record (h : p.Ready) (c : String) (m : ModelMessage) :
    p.Moved (p.after c (.record m)) := by
  have hknown : ∀ entries', (p.entry c m).uuid ∈ entries'.map Entry.uuid →
      Known entries' (some (p.entry c m).uuid) := by
    intro entries' hmem uuid hu
    cases hu
    exact hmem
  simp only [Place.after]
  split
  · rename_i hany
    have hmem : (p.entry c m).uuid ∈ p.entries.map Entry.uuid := by simpa using hany
    obtain ⟨hkept, hgrown, htip, hburied⟩ := (h.kept.mono (Nat.le_add_right _ 4)).move
      c (hknown p.entries hmem) (p.instant + 6) (by omega)
    exact ⟨⟨hkept, hknown _ (hgrown hmem)⟩, htip, hburied⟩
  · refine ⟨⟨h.kept.append (by simp) ?_, hknown _ (by simp)⟩, ?_, ?_⟩
    · exact .message p.parentUuid m rfl rfl rfl rfl h.known
    · exact tip_append_message rfl rfl
    · intro u
      simp [Transcript.buried, Place.entry, messageEntry]

theorem Place.Ready.rewind (h : p.Ready) (c : String) {leaf : Option Uuid}
    (hleaf : Known p.entries leaf) : p.Moved (p.after c (.rewind leaf)) := by
  obtain ⟨hkept, hgrown, htip, hburied⟩ := h.kept.move c hleaf (p.instant + 3) (by omega)
  exact ⟨⟨hkept, fun uuid hu => hgrown (hleaf uuid hu)⟩, htip, hburied⟩

/-- A burial is permanent, and a second one of the same entry changes nothing. -/
theorem Place.Ready.forget (h : p.Ready) (c : String) (deleted : Uuid) :
    (p.after c (.forget deleted)).Ready ∧
      ∀ u, buried (p.after c (.forget deleted)).entries u =
        (buried p.entries u || decide (deleted = u)) := by
  simp only [Place.after]
  cases hany : p.entries.any
      (fun old => old.uuid = (tombstoneEntry c deleted p.instant).uuid) with
  | true =>
    rw [grown_old hany]
    refine ⟨⟨h.kept.mono (by simp), h.known⟩, ?_⟩
    intro u
    by_cases hu : deleted = u
    · obtain ⟨e, he, hid⟩ := List.any_eq_true.mp hany
      have hid : e.uuid = .tombstone deleted := of_decide_eq_true hid
      have hburied : buried p.entries u = true := by
        simp only [buried, List.any_eq_true, decide_eq_true_eq]
        refine ⟨e, he, ?_⟩
        cases h.kept e he with
        | message parent m hparent hmessage htype hid' hold =>
          cases parent <;> simp [hid, entryId] at hid'
        | leaf t ht hparent htype hid' hold => simp [hid] at hid'
        | tombstone v hparent htype hid' hdeleted =>
          rw [hid] at hid'
          cases hid'
          exact ⟨htype, hu ▸ hdeleted⟩
      simp [hburied]
    · simp [hu]
  | false =>
    rw [grown_new hany]
    refine ⟨⟨h.kept.append (by simp) (.tombstone deleted rfl rfl rfl rfl), ?_⟩, ?_⟩
    · intro uuid hu
      simp [h.known uuid hu]
    · intro u
      simp [buried, tombstoneEntry]

end

/-! Sequences of calls. -/

/-- What a sequence of calls says so far: where the writer's chain ends, and the entries forgotten
and not recorded again since. -/
structure Course where
  parentUuid : Option Uuid
  hidden : List Uuid

def Course.after (k : Course) : Edit → Course
  | .record m =>
    { parentUuid := some (entryId k.parentUuid (body m))
      hidden := k.hidden.filter (fun u => u ≠ entryId k.parentUuid (body m)) }
  | .rewind leaf => { k with parentUuid := leaf }
  | .forget deleted => { k with hidden := deleted :: k.hidden }

/-- The writer's chain, less what is hidden. -/
def Course.shown (k : Course) : List Uuid := (chainTo k.parentUuid).filter (fun u => u ∉ k.hidden)

/-- After a record its message is the last a reader sees and the visible branch is the writer's
chain less what is hidden; after a rewind that branch ends at its target or the nearest ancestor
that is not hidden. -/
def Agrees (entries : List Entry) (k : Course) : Edit → Prop
  | .record m =>
    (∃ m', (messagesOf entries).getLast? = some m' ∧ same m' m) ∧
      (activeBranch entries).map Entry.uuid = k.shown
  | .rewind _ => (activeBranch entries).getLast?.map Entry.uuid = k.shown.getLast?
  | .forget _ => True

/-- A message is not recorded where one is hidden. -/
def Course.clear (k : Course) : Edit → Prop
  | .record m => entryId k.parentUuid (body m) ∉ k.hidden
  | _ => True

/-- Every rewind of the sequence is to an entry that exists by then, or to none. -/
def Rewinds (out : Outside) (c : String) (i : Nat) : Scene → List Edit → Prop
  | _, [] => True
  | s, e :: rest =>
    e.Existing (s.world.transcript.read c) ∧ Rewinds out c i (e.done out c i s) rest

/-- Writer and readers agree after every call of the sequence. -/
def Agreed (out : Outside) (c : String) (i : Nat) : Scene → Course → List Edit → Prop
  | _, _, [] => True
  | s, k, e :: rest =>
    Agrees ((e.done out c i s).world.transcript.read c) (k.after e) e ∧
      Agreed out c i (e.done out c i s) (k.after e) rest

/-- No message of the sequence is recorded where one is hidden. -/
def Clear : Course → List Edit → Prop
  | _, [] => True
  | k, e :: rest => k.clear e ∧ Clear (k.after e) rest

/-- A writer at the end of its chain, in a conversation in which the hidden entries are buried. -/
structure Standing (c : String) (i : Nat) (s : Scene) (k : Course) : Prop where
  ready : (place c i s).Ready
  parent : (s.attempts i).branch.parentUuid = k.parentUuid
  hidden : ∀ u, u ∈ k.hidden ↔ buried (s.world.transcript.read c) u = true

section
variable {out : Outside} {c : String} {i : Nat} {s : Scene} {k : Course}

theorem Standing.place_parent (h : Standing c i s k) : (place c i s).parentUuid = k.parentUuid :=
  h.parent

theorem place_entries (s : Scene) : (place c i s).entries = s.world.transcript.read c := rfl

/-- A call that buries nothing moves the reader's tip to the writer's. -/
theorem Standing.moved (h : Standing c i s k) (out : Outside) (e : Edit)
    (hforget : ∀ u, e ≠ .forget u) (he : e.Existing (s.world.transcript.read c)) :
    (place c i s).Moved (place c i (e.done out c i s)) ∧
      (place c i (e.done out c i s)).parentUuid = (k.after e).parentUuid := by
  rw [place_done]
  cases e with
  | record m =>
    refine ⟨h.ready.record c m, ?_⟩
    have hid : some ((place c i s).entry c m).uuid = (k.after (.record m)).parentUuid := by
      simp [Place.entry, messageEntry, Course.after, h.place_parent]
    rw [← hid]
    simp only [Place.after]
    split
    · rfl
    · rfl
  | rewind leaf => exact ⟨h.ready.rewind c he, rfl⟩
  | forget deleted => exact absurd rfl (hforget deleted)

/-- What a reader sees after such a call: the writer's chain, less what is hidden. -/
theorem Standing.visible (h : Standing c i s k) (out : Outside) (e : Edit)
    (hforget : ∀ u, e ≠ .forget u) (he : e.Existing (s.world.transcript.read c)) :
    (activeBranch ((e.done out c i s).world.transcript.read c)).map Entry.uuid =
      (chainTo (k.after e).parentUuid).filter (fun u => u ∉ k.hidden) := by
  obtain ⟨hmoved, hparent⟩ := h.moved out e hforget he
  have hvisible := hmoved.ready.kept.visible
  rw [hmoved.tip, hparent] at hvisible
  rw [← place_entries, hvisible]
  apply List.filter_congr
  intro u _
  have hburied : buried (place c i (e.done out c i s)).entries u =
      buried (s.world.transcript.read c) u := hmoved.buried u
  have hhidden := h.hidden u
  cases hu : buried (s.world.transcript.read c) u with
  | true => simp [hburied, hu, hhidden.mpr hu]
  | false =>
    have hnot : u ∉ k.hidden := fun hmem => by simp [hhidden.mp hmem] at hu
    simp [hburied, hu, hnot]

/-- As long as nothing is recorded where a message is hidden, what is hidden is what is buried. -/
theorem Standing.after (h : Standing c i s k) (out : Outside) (e : Edit)
    (he : e.Existing (s.world.transcript.read c)) (hclear : k.clear e) :
    Standing c i (e.done out c i s) (k.after e) := by
  cases e with
  | record m =>
    obtain ⟨hmoved, hparent⟩ := h.moved out (.record m) (by simp) he
    refine ⟨hmoved.ready, hparent, ?_⟩
    intro u
    have hburied := hmoved.buried u
    simp only [place_entries] at hburied
    have hne : u ∈ k.hidden → u ≠ entryId k.parentUuid (body m) :=
      fun hu heq => hclear (heq ▸ hu)
    simp only [Course.after, List.mem_filter, decide_eq_true_eq, hburied, ← h.hidden u]
    exact ⟨fun hu => hu.1, fun hu => ⟨hu, hne hu⟩⟩
  | rewind leaf =>
    obtain ⟨hmoved, hparent⟩ := h.moved out (.rewind leaf) (by simp) he
    refine ⟨hmoved.ready, hparent, ?_⟩
    intro u
    have hburied := hmoved.buried u
    simp only [place_entries] at hburied
    rw [hburied]
    exact h.hidden u
  | forget deleted =>
    obtain ⟨hready, hburied⟩ := h.ready.forget c deleted
    have hplace := place_done out c i s (.forget deleted)
    rw [← hplace] at hready hburied
    refine ⟨hready, (congrArg Place.parentUuid hplace).trans h.parent, ?_⟩
    intro u
    have hu := hburied u
    simp only [place_entries] at hu
    simp only [Course.after, List.mem_cons, hu, Bool.or_eq_true, decide_eq_true_eq, ← h.hidden u]
    constructor
    · rintro (rfl | hmem)
      · exact .inr rfl
      · exact .inl hmem
    · rintro (hmem | rfl)
      · exact .inr hmem
      · exact .inl rfl

/-- A reader sees a recorded message, and no more hidden than its writer, exactly if it was not
recorded where one is hidden. -/
theorem Standing.agrees_record (h : Standing c i s k) (m : ModelMessage) :
    Agrees (((Edit.record m).done out c i s).world.transcript.read c) (k.after (.record m))
      (.record m) ↔ k.clear (.record m) := by
  have hvisible := h.visible out (.record m) (by simp) trivial
  have hlast : entryId k.parentUuid (body m) ∈ chainTo (k.after (.record m)).parentUuid := by
    simp [Course.after, chainTo_entryId]
  constructor
  · rintro ⟨-, hshown⟩ hmem
    -- The entry landed on is buried, so the reader misses it; the course has it shown again.
    have hsees : entryId k.parentUuid (body m) ∈ (k.after (.record m)).shown := by
      simp only [Course.shown, List.mem_filter, hlast, true_and]
      simp [Course.after]
    rw [← hshown, hvisible, List.mem_filter] at hsees
    simp [hmem] at hsees
  · intro hclear
    refine ⟨?_, ?_⟩
    · obtain ⟨hmoved, hparent⟩ := h.moved out (.record m) (by simp) trivial
      apply hmoved.ready.kept.last
      · rw [hmoved.tip, hparent]
        rfl
      · rw [hmoved.buried, place_entries]
        exact Bool.eq_false_iff.mpr (fun hb => hclear ((h.hidden _).mpr hb))
    · rw [hvisible]
      apply List.filter_congr
      intro u _
      have hne : u ∈ k.hidden → u ≠ entryId k.parentUuid (body m) :=
        fun hu heq => hclear (heq ▸ hu)
      simp only [Course.after, List.mem_filter, decide_eq_true_eq, decide_eq_decide, not_and]
      exact ⟨fun hu hmem => absurd hmem hu, fun hu hmem => hu hmem (hne hmem)⟩

theorem Standing.agrees_rewind (h : Standing c i s k) {leaf : Option Uuid}
    (he : (Edit.rewind leaf).Existing (s.world.transcript.read c)) :
    Agrees (((Edit.rewind leaf).done out c i s).world.transcript.read c)
      (k.after (.rewind leaf)) (.rewind leaf) := by
  have hvisible := h.visible out (.rewind leaf) (by simp) he
  simp only [Agrees, ← List.getLast?_map, hvisible]
  rfl

/-- Writer and readers agree after every call of a sequence exactly if it never records a message
where one is hidden. -/
theorem agreed_iff (h : Standing c i s k) {edits : List Edit} (hedits : Rewinds out c i s edits) :
    Agreed out c i s k edits ↔ Clear k edits := by
  induction edits generalizing s k with
  | nil => exact Iff.rfl
  | cons e rest ih =>
    obtain ⟨he, hrest⟩ := hedits
    have hstep : Agrees ((e.done out c i s).world.transcript.read c) (k.after e) e ↔ k.clear e := by
      cases e with
      | record m => exact h.agrees_record m
      | rewind leaf => exact iff_of_true (h.agrees_rewind he) trivial
      | forget deleted => exact iff_of_true trivial trivial
    simp only [Agreed, Clear, hstep]
    constructor
    · rintro ⟨hclear, hlater⟩
      exact ⟨hclear, (ih (h.after out e he hclear) hrest).mp hlater⟩
    · rintro ⟨hclear, hlater⟩
      exact ⟨hclear, (ih (h.after out e he hclear) hrest).mpr hlater⟩

end

/-! A conversation that has just begun, in which a message is forgotten and the tip taken back. -/

def silent : Outside :=
  Outside.answering (fun _ _ _ => .ok .null) (fun _ _ => .error .cancelled)
    (fun _ _ _ => .error .cancelled)

def begun : Scene := ⟨{}, fun _ => {}, []⟩

def hello : ModelMessage := .request { parts := [.userPrompt (.str "hello") .null] }

/-- The message is recorded first, forgotten, and given up. -/
def forgotten : List Edit :=
  [.record hello, .forget (entryId none (body hello)), .rewind none]

theorem standing_begun : Standing "c" 0 begun ⟨none, []⟩ := by
  refine ⟨⟨?_, ?_⟩, rfl, ?_⟩
  · intro e he
    cases he
  · intro uuid hu
    cases hu
  · intro u
    constructor
    · intro hu
      cases hu
    · intro hu
      cases hu

/-- Forgetting a message and giving it up, writer and readers agree. -/
theorem agreed_forgotten : Agreed silent "c" 0 begun ⟨none, []⟩ forgotten := by
  have hedits : Rewinds silent "c" 0 begun forgotten := ⟨trivial, trivial, nofun, trivial⟩
  refine (agreed_iff standing_begun hedits).mpr ?_
  exact ⟨by simp [Course.clear], trivial, trivial, trivial⟩

/-- Recorded again where it was forgotten, the message stays hidden from every reader. -/
theorem not_agreed : ¬ ∀ (out : Outside) (c : String) (i : Nat) (s : Scene) (k : Course)
    (edits : List Edit), Standing c i s k → Rewinds out c i s edits → Agreed out c i s k edits := by
  intro h
  have hedits : Rewinds silent "c" 0 begun (forgotten ++ [.record hello]) := by
    simp only [forgotten, List.cons_append, List.nil_append]
    exact ⟨trivial, trivial, nofun, trivial, trivial⟩
  obtain ⟨-, -, -, hagrees, -⟩ := h _ _ _ _ _ _ standing_begun hedits
  have hrecorded := standing_begun.after silent (.record hello) trivial (by simp [Course.clear])
  have hforgot := hrecorded.after silent (.forget (entryId none (body hello))) trivial trivial
  have hrewound := hforgot.after silent (.rewind none) nofun trivial
  have hclear := (hrewound.agrees_record hello).mp hagrees
  simp [Course.clear, Course.after] at hclear

end Semora.Proofs.Forgotten
