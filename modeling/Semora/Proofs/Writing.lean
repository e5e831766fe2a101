import Mathlib.Data.List.Induction
import Semora.Proofs.Performs
import Semora.Scene

/-! What the writer of a conversation does to it: where its chain stands after each message it
records, and after each history it moves to. -/

namespace Semora.Proofs.Writing
open Semora.Lib Semora.Store Semora.Transcript

/-! Chains of messages. -/

/-- Where a chain that continues from `parent` with these bodies ends. -/
def reach (parent : Option Uuid) (bodies : List Json) : Option Uuid :=
  bodies.foldl (fun parent b => some (entryId parent b)) parent

/-- The identifiers along that chain. -/
def trail : Option Uuid → List Json → List Uuid
  | _, [] => []
  | parent, b :: bodies => entryId parent b :: trail (some (entryId parent b)) bodies

@[simp] theorem reach_nil (parent : Option Uuid) : reach parent [] = parent := rfl

theorem reach_append (parent : Option Uuid) (bodies more : List Json) :
    reach parent (bodies ++ more) = reach (reach parent bodies) more :=
  List.foldl_append

theorem reach_concat (parent : Option Uuid) (bodies : List Json) (b : Json) :
    reach parent (bodies ++ [b]) = some (entryId (reach parent bodies) b) := by
  rw [reach_append]
  rfl

theorem path_reach (parent : Option Uuid) (bodies : List Json) :
    path (reach parent bodies) = path parent ++ bodies := by
  induction bodies generalizing parent with
  | nil => simp
  | cons b bodies ih =>
    have h := ih (some (entryId parent b))
    simpa [reach] using h

@[simp] theorem trail_length (parent : Option Uuid) (bodies : List Json) :
    (trail parent bodies).length = bodies.length := by
  induction bodies generalizing parent with
  | nil => rfl
  | cons b bodies ih => simp [trail, ih]

theorem trail_append (parent : Option Uuid) (bodies more : List Json) :
    trail parent (bodies ++ more) = trail parent bodies ++ trail (reach parent bodies) more := by
  induction bodies generalizing parent with
  | nil => rfl
  | cons b bodies ih => simp [trail, ih, reach]

theorem trail_take (parent : Option Uuid) (bodies : List Json) (k : Nat) :
    trail parent (bodies.take k) = (trail parent bodies).take k := by
  induction bodies generalizing parent k with
  | nil => simp [trail]
  | cons b bodies ih =>
    cases k with
    | zero => rfl
    | succ k => simp [trail, ih]

theorem trail_last (parent : Option Uuid) (bodies : List Json) (h : bodies ≠ []) :
    (trail parent bodies).getLast? = reach parent bodies := by
  obtain ⟨front, last, rfl⟩ : ∃ front last, bodies = front ++ [last] :=
    ⟨bodies.dropLast, bodies.getLast h, (List.dropLast_append_getLast h).symm⟩
  rw [trail_append, reach_concat]
  simp [trail]

/-- Where the first `k` of a chain end. -/
theorem trail_get (bodies : List Json) {k : Nat} (hk : 0 < k) (hle : k ≤ bodies.length) :
    (trail none bodies)[k - 1]? = reach none (bodies.take k) := by
  have hne : bodies.take k ≠ [] := by
    intro h
    rw [List.take_eq_nil_iff] at h
    rcases h with h | h
    · omega
    · simp [h] at hle
      omega
  rw [← trail_last none _ hne, trail_take, List.getLast?_eq_getElem?]
  simp only [List.length_take, trail_length, Nat.min_eq_left hle]
  rw [List.getElem?_take_of_lt (by omega)]

/-! Conversations as their writers leave them. -/

variable {entries : List Entry} {uuid : Uuid}

/-- Every entry but a marker is chained, and named after its message. -/
theorem parented (h : Wellformed entries) :
    ∀ e ∈ entries, e.type ≠ .leaf → e.parentUuid.isSome := by
  induction h with
  | nil => simp
  | message rest hparent hmessage htype hid hold hnew ih =>
    intro e he ht
    rcases List.mem_append.mp he with he | he
    · exact ih e he ht
    · simp [List.mem_singleton.mp he, hparent]
  | leaf rest hparent htype hold ih =>
    intro e he ht
    rcases List.mem_append.mp he with he | he
    · exact ih e he ht
    · exact absurd (List.mem_singleton.mp he ▸ htype) ht

theorem named (h : Wellformed entries) :
    ∀ e ∈ entries, e.type ≠ .leaf → ∃ parent m, e.uuid = entryId parent (body m) := by
  induction h with
  | nil => simp
  | message rest hparent hmessage htype hid hold hnew ih =>
    intro e he ht
    rcases List.mem_append.mp he with he | he
    · exact ih e he ht
    · exact ⟨_, _, List.mem_singleton.mp he ▸ hid⟩
  | leaf rest hparent htype hold ih =>
    intro e he ht
    rcases List.mem_append.mp he with he | he
    · exact ih e he ht
    · exact absurd (List.mem_singleton.mp he ▸ htype) ht

/-- A chained identifier is where its own path leads. -/
theorem chained_reach (h : Wellformed entries) (hc : ∃ e, chained entries uuid = some e) :
    reach none uuid.path = some uuid := by
  suffices hn : ∀ n (uuid : Uuid), uuid.path.length = n → (∃ e, chained entries uuid = some e) →
      reach none uuid.path = some uuid from hn _ uuid rfl hc
  intro n
  induction n with
  | zero =>
    rintro uuid hlen ⟨e, hc⟩
    obtain ⟨-, parent, m, -, -, hid, -⟩ := h.entry hc
    have hpath := path_entryId parent (body m)
    rw [← hid] at hpath
    simp only [path] at hpath
    rw [hpath] at hlen
    simp at hlen
  | succ n ih =>
    rintro uuid hlen ⟨e, hc⟩
    obtain ⟨-, parent, m, -, -, hid, hold⟩ := h.entry hc
    have hpath := path_entryId parent (body m)
    rw [← hid] at hpath
    simp only [path] at hpath
    rw [hpath, reach_concat, hid]
    cases parent with
    | none => rfl
    | some p =>
      have hlast : reach none p.path = some p := ih p (by simpa [hpath, path] using hlen) (hold p rfl)
      simp only [hlast]

theorem entryId_parent {parent parent' : Option Uuid} {b b' : Json}
    (h : entryId parent b = entryId parent' b') : parent = parent' := by
  cases parent <;> cases parent' <;> simp_all [entryId]

/-- Where a chain begins is in the conversation if its end is. -/
theorem chained_front (h : Wellformed entries) (bodies more : List Json)
    (hend : ∀ uuid, reach none (bodies ++ more) = some uuid → ∃ e, chained entries uuid = some e) :
    ∀ uuid, reach none bodies = some uuid → ∃ e, chained entries uuid = some e := by
  induction more using List.reverseRecOn with
  | nil => simpa using hend
  | append_singleton more b ih =>
    refine ih (fun uuid hu => ?_)
    rw [← List.append_assoc, reach_concat] at hend
    obtain ⟨e, hc⟩ := hend _ rfl
    obtain ⟨-, parent, m, -, -, hid, hold⟩ := h.entry hc
    exact hold uuid (entryId_parent hid ▸ hu)

theorem tip_reach (h : Wellformed entries) : reach none (path (tip entries)) = tip entries := by
  cases ht : tip entries with
  | none => rfl
  | some uuid => exact chained_reach h (h.tip ht)

/-- The entries walked back from a chained one are those of its trail, and all carry messages. -/
theorem walk_trail (h : Wellformed entries) (fuel : Nat) (seen : List Uuid)
    (hc : ∃ e, chained entries uuid = some e) (hf : uuid.path.length ≤ fuel)
    (hs : ∀ s ∈ seen, uuid.path.length < s.path.length) :
    (walk entries fuel (some uuid) seen).reverse.map Entry.uuid = trail none uuid.path ∧
      ∀ e ∈ walk entries fuel (some uuid) seen, e.message.isSome := by
  induction fuel generalizing uuid seen with
  | zero =>
    obtain ⟨e, hc⟩ := hc
    obtain ⟨-, parent, m, -, -, hid, -⟩ := h.entry hc
    have hpath := path_entryId parent (body m)
    rw [← hid] at hpath
    simp only [path] at hpath
    rw [hpath] at hf
    simp at hf
  | succ fuel ih =>
    obtain ⟨e, hc⟩ := hc
    obtain ⟨hu, parent, m, hp, hm, hid, hold⟩ := h.entry hc
    have hnot : uuid ∉ seen := fun hmem => Nat.lt_irrefl _ (hs uuid hmem)
    have hpath : uuid.path = path parent ++ [body m] := by
      have := path_entryId parent (body m)
      rw [← hid] at this
      exact this
    have holder : (walk entries fuel parent (uuid :: seen)).reverse.map Entry.uuid =
        trail none (path parent) ∧
        ∀ e ∈ walk entries fuel parent (uuid :: seen), e.message.isSome := by
      cases parent with
      | none => cases fuel <;> simp [walk, trail]
      | some p =>
        have hlen : uuid.path.length = p.path.length + 1 := by simp [hpath, path]
        refine ih (uuid :: seen) (hold p rfl) (by omega) ?_
        intro s hmem
        rcases List.mem_cons.mp hmem with rfl | hmem
        · omega
        · have := hs s hmem
          omega
    have hreach : reach none (path parent) = parent := by
      cases parent with
      | none => rfl
      | some p => exact chained_reach h (hold p rfl)
    simp only [walk, hnot, ↓reduceIte, hc, hp, Option.getD_some, h.buried, Bool.false_eq_true]
    constructor
    · rw [List.reverse_cons, List.map_append, holder.1, hpath, trail_append, hreach]
      simp [trail, hu, ← hid]
    · intro e' he'
      rcases List.mem_cons.mp he' with rfl | he'
      · simp [hm]
      · exact holder.2 e' he'

/-- What `Branch.open` reads off a conversation. -/
theorem activeBranch_trail (h : Wellformed entries) :
    (activeBranch entries).map Entry.uuid = trail none (path (tip entries)) ∧
      ∀ e ∈ activeBranch entries, e.message.isSome := by
  unfold activeBranch
  cases ht : tip entries with
  | none => cases entries <;> simp [walk, trail]
  | some uuid =>
    obtain ⟨e, he⟩ := h.tip ht
    have hw := walk_trail h entries.length [] ⟨e, he⟩ (h.length he) (by simp)
    exact ⟨hw.1, fun e' he' => hw.2 e' (List.mem_reverse.mp he')⟩

/-! Messages up to what replays vary. -/

/-- What a message says, up to what replays vary. -/
def gist (m : ModelMessage) : Json := (body m).numeral

theorem same_iff (m m' : ModelMessage) : same m m' ↔ gist m = gist m' := by
  unfold same Json.eqv gist body
  rw [Json.canonical_numeral, Json.canonical_numeral]

/-- What a history says. -/
def gists (messages : List ModelMessage) : List Json := messages.map gist

theorem numeral_bodies (messages : List ModelMessage) :
    (messages.map body).map Json.numeral = gists messages := by
  simp [gists, gist]

theorem forall₂_same (messages messages' : List ModelMessage) :
    List.Forall₂ same messages messages' ↔ gists messages = gists messages' := by
  induction messages generalizing messages' with
  | nil => cases messages' <;> simp [gists]
  | cons m messages ih =>
    cases messages' with
    | nil => simp [gists]
    | cons m' messages' =>
      rw [List.forall₂_cons, ih, same_iff]
      simp [gists]

/-- The leading messages two histories share are all there is of the first, when the second goes
on from it. -/
theorem common_prefix {messages desired : List ModelMessage}
    (h : gists messages <+: gists desired) : Branch.common messages desired = messages.length := by
  induction messages generalizing desired with
  | nil => cases desired <;> rfl
  | cons m messages ih =>
    cases desired with
    | nil => simp [gists] at h
    | cons m' desired =>
      obtain ⟨hm, hrest⟩ : gist m = gist m' ∧ gists messages <+: gists desired := by
        simpa [gists, List.cons_prefix_cons] using h
      simp only [Branch.common, if_pos ((same_iff m m').mpr hm), ih hrest, List.length_cons]

theorem common_le (messages desired : List ModelMessage) :
    Branch.common messages desired ≤ messages.length := by
  induction messages generalizing desired with
  | nil => cases desired <;> simp [Branch.common]
  | cons m messages ih =>
    cases desired with
    | nil => simp [Branch.common]
    | cons m' desired =>
      simp only [Branch.common]
      split
      · have := ih desired
        simp only [List.length_cons]
        omega
      · simp

theorem common_take (messages desired : List ModelMessage) :
    gists (messages.take (Branch.common messages desired)) =
      gists (desired.take (Branch.common messages desired)) := by
  induction messages generalizing desired with
  | nil => cases desired <;> simp [Branch.common]
  | cons m messages ih =>
    cases desired with
    | nil => simp [Branch.common]
    | cons m' desired =>
      simp only [Branch.common]
      split
      · rename_i hm
        have hrest := ih desired
        simp only [gists] at hrest
        simp [gists, hrest, (same_iff m m').mp hm]
      · simp

/-! A conversation in a world, and the branch an attempt keeps of it. -/

/-- A conversation as its writers leave it, whose markers were all made before this moment. -/
structure Orderly (c : String) (w : World) : Prop where
  wellformed : Wellformed (w.transcript.read c)
  dated : ∀ e ∈ w.transcript.read c, e.type = .leaf →
    ∃ t < w.instant, e.uuid = .reset t ∨ ∃ u, e.uuid = .rewound t u

/-- The bodies of what the conversation holds. -/
def spelled (c : String) (s : Scene) : List Json := path (tip (s.world.transcript.read c))

/-- What the conversation holds. -/
def committed (c : String) (s : Scene) : List ModelMessage :=
  messagesOf (s.world.transcript.read c)

theorem Orderly.committed {c : String} {s : Scene} (h : Orderly c s.world) :
    (Writing.committed c s).map body = spelled c s :=
  h.wellformed.messages

theorem Orderly.later {c : String} {w w' : World} (h : Orderly c w)
    (hread : w'.transcript.read c = w.transcript.read c) (hinstant : w.instant ≤ w'.instant) :
    Orderly c w' := by
  refine ⟨hread ▸ h.wellformed, ?_⟩
  intro e he htype
  obtain ⟨t, ht, hu⟩ := h.dated e (hread ▸ he) htype
  exact ⟨t, by omega, hu⟩

/-- The branch coordinates name the conversation's own chain, and its messages are what it holds. -/
structure Linked (b : Semora.Branch) (entries : List Entry) : Prop where
  parent : b.parentUuid = tip entries
  bodies : b.messages.map body = path (tip entries)
  uuids : b.uuids = trail none (b.messages.map body)

theorem Linked.said {b : Semora.Branch} {entries : List Entry} (h : Linked b entries) :
    gists b.messages = (path (tip entries)).map Json.numeral := by
  rw [← h.bodies, numeral_bodies]

/-- A message entry at the tip: either the conversation already holds it, chained, or appending
it moves the tip to it. -/
theorem append_message {c : String} {w : World} (h : Orderly c w) (m : ModelMessage) (n : Nat) :
    let e := messageEntry m c (tip (w.transcript.read c)) n
    ((w.transcript.append e) = (false, w.transcript) ∧
      ∃ old, chained (w.transcript.read c) e.uuid = some old) ∨
    ((w.transcript.append e).1 = true ∧
      (w.transcript.append e).2.read c = w.transcript.read c ++ [e] ∧
      Wellformed (w.transcript.read c ++ [e]) ∧ tip (w.transcript.read c ++ [e]) = some e.uuid) := by
  intro e
  by_cases hold : ∃ old ∈ w.transcript.read c, old.uuid = e.uuid
  · left
    refine ⟨MemoryTranscript.append_old _ hold, ?_⟩
    obtain ⟨old, hmem, hu⟩ := hold
    have htype : old.type ≠ .leaf := by
      intro ht
      obtain ⟨t, -, hl⟩ := h.dated old hmem ht
      rw [hu] at hl
      simp only [e, messageEntry] at hl
      cases hp : tip (w.transcript.read c) <;> simp [hp, entryId] at hl
    have hsome := parented h.wellformed old hmem htype
    have hfind : (chained (w.transcript.read c) e.uuid).isSome := by
      simp only [chained, List.find?_isSome]
      exact ⟨old, by simp [hmem, hsome], by simp [hu]⟩
    exact Option.isSome_iff_exists.mp hfind
  · right
    have hnew : ∀ old ∈ w.transcript.read c, old.uuid ≠ e.uuid := by simpa using hold
    obtain ⟨h₁, -, h₂⟩ := @MemoryTranscript.append_new w.transcript e hnew
    refine ⟨h₁, by rw [h₂ c]; simp [e, messageEntry], ?_, tip_append_message rfl rfl⟩
    exact .message h.wellformed rfl rfl rfl rfl (fun uuid hu => h.wellformed.tip hu) hnew

/-- A new `leaf` marker moves the tip to a chained entry, or before all of them. -/
theorem append_leaf {c : String} {w : World} (h : Orderly c w) (leaf : Option Uuid) {n : Nat}
    (hn : ∀ e ∈ w.transcript.read c, e.type = .leaf →
      ∃ t < n, e.uuid = .reset t ∨ ∃ u, e.uuid = .rewound t u)
    (hold : ∀ uuid, leaf = some uuid → ∃ old, chained (w.transcript.read c) uuid = some old) :
    let e := leafEntry c leaf n
    (w.transcript.append e).2.read c = w.transcript.read c ++ [e] ∧
      Wellformed (w.transcript.read c ++ [e]) ∧ tip (w.transcript.read c ++ [e]) = leaf := by
  intro e
  have hnew : ∀ old ∈ w.transcript.read c, old.uuid ≠ e.uuid := by
    intro old hmem hu
    by_cases htype : old.type = .leaf
    · obtain ⟨t, ht, hl⟩ := hn old hmem htype
      rw [hu] at hl
      simp only [e, leafEntry] at hl
      cases leaf <;> simp at hl <;> omega
    · obtain ⟨parent, m, hid⟩ := named h.wellformed old hmem htype
      rw [hu] at hid
      simp only [e, leafEntry] at hid
      cases leaf <;> cases parent <;> simp [entryId] at hid
  obtain ⟨-, -, h₂⟩ := @MemoryTranscript.append_new w.transcript e hnew
  refine ⟨by rw [h₂ c]; simp [e, leafEntry], ?_, tip_append_leaf rfl⟩
  exact .leaf h.wellformed rfl rfl hold

/-! The writer's operations. An attempt performs them between moves of an environment that lets
the conversation and the attempt's memory alone. -/

/-- What others do meanwhile to attempt `i`'s conversation: nothing. -/
structure Apart (c : String) (i : Nat) (a b : Scene) : Prop where
  memory : b.attempts i = a.attempts i
  read : b.world.transcript.read c = a.world.transcript.read c
  instant : a.world.instant ≤ b.world.instant

theorem Apart.refl (c : String) (i : Nat) (s : Scene) : Apart c i s s := ⟨rfl, rfl, le_rfl⟩

theorem Apart.trans {c : String} {i : Nat} {s s' s'' : Scene} (h : Apart c i s s')
    (h' : Apart c i s' s'') : Apart c i s s'' :=
  ⟨h'.memory.trans h.memory, h'.read.trans h.read, h.instant.trans h'.instant⟩

/-- What a writer does: it reads and writes the transcript, and keeps its branch. -/
def Writer : Op → Prop
  | .get | .modify _ | .now | .append _ | .readEntries _ | .recordBranch .. => True
  | _ => False

/-- One step of the writer of attempt `i`, whose memory is `t` but for the branch: what the
conversation spells then is allowed, and nothing else has changed. -/
structure Writes (c : String) (i : Nat) (t : Attempt) (allowed : List Json → Prop)
    (a b : Scene) : Prop where
  orderly : Orderly c b.world
  allowed : allowed (spelled c b)
  store : b.world.store = a.world.store
  memory : ∃ branch, b.attempts i = { t with branch }
  others : ∀ j, j ≠ i → b.attempts j = a.attempts j
  grown : ∃ o r, b.events = a.events ++ [⟨i, o, r⟩] ∧ Writer o

/-- Where the writer is: its branch coordinates, and the conversation's entries. -/
structure Midway (c : String) (i : Nat) (t : Attempt) (allowed : List Json → Prop)
    (branch : Semora.Branch) (entries : List Entry) (s : Scene) : Prop where
  memory : s.attempts i = { t with branch }
  read : s.world.transcript.read c = entries
  orderly : Orderly c s.world
  allowed : allowed (path (tip entries))

section
variable {out : Outside} {c : String} {i : Nat} {t : Attempt} {allowed : List Json → Prop}
variable {ex : Prog.Exec Op Op.Res Exn Scene} {R G : Scene → Scene → Prop}
variable {branch : Semora.Branch} {s : Scene}

theorem Midway.apart {s' : Scene} (h : Midway c i t allowed branch entries s)
    (hr : Apart c i s s') : Midway c i t allowed branch entries s' where
  memory := hr.memory.trans h.memory
  read := hr.read.trans h.read
  orderly := h.orderly.later hr.read hr.instant
  allowed := h.allowed

theorem Midway.writes {a : Scene} (h : Midway c i t allowed branch entries s)
    (store : s.world.store = a.world.store)
    (others : ∀ j, j ≠ i → s.attempts j = a.attempts j)
    (grown : ∃ o r, s.events = a.events ++ [⟨i, o, r⟩] ∧ Writer o) : Writes c i t allowed a s where
  orderly := h.orderly
  allowed := by
    unfold spelled
    rw [h.read]
    exact h.allowed
  store := store
  memory := ⟨branch, h.memory⟩
  others := others
  grown := grown

/-- What it takes to follow a writer: its operations are the scene's, others keep apart, and its
steps are within the guarantee. -/
structure Follows (out : Outside) (c : String) (i : Nat) (t : Attempt) (allowed : List Json → Prop)
    (ex : Prog.Exec Op Op.Res Exn Scene) (R G : Scene → Scene → Prop) : Prop where
  exec : ∀ o s r s', ex o s r s' → exec out id i o s r s'
  rely : ∀ a b, R a b → Apart c i a b
  guarantee : ∀ a b, Writes c i t allowed a b → G a b

variable (follows : Follows out c i t allowed ex R G)
include follows

/-- One operation of the writer, by what its step makes of any world the environment may leave. -/
theorem step_safe {o : Op} (ho : Writer o) {Q : Except Exn o.Res → Scene → Prop}
    (h : Midway c i t allowed branch entries s)
    (hQ : ∀ w : World, Orderly c w → w.transcript.read c = entries → s.world.instant ≤ w.instant →
      ∃ branch' entries', (step out o w { t with branch }).2.2 = { t with branch := branch' } ∧
        (step out o w { t with branch }).2.1.transcript.read c = entries' ∧
        (step out o w { t with branch }).2.1.store = w.store ∧
        Orderly c (step out o w { t with branch }).2.1 ∧ allowed (path (tip entries')) ∧
        ∀ s', Midway c i t allowed branch' entries' s' →
          s'.world = (step out o w { t with branch }).2.1 →
          Q (step out o w { t with branch }).1 s') :
    Prog.safe ex R G (perform o) Q s := by
  refine (Prog.safe_op _ _ _).mpr (fun s₁ hr r s₂ he => ?_)
  have hm := h.apart (follows.rely _ _ hr)
  obtain ⟨hevents, hw, hrep⟩ := exec_events (follows.exec _ _ _ _ he)
  have ha := exec_attempts (follows.exec _ _ _ _ he)
  simp only [id, hm.memory] at hw hrep ha
  obtain ⟨branch', entries', hmemory, hread, hstore, horderly, hallowed, hQ⟩ :=
    hQ s₁.world hm.orderly hm.read (follows.rely _ _ hr).instant
  have hm' : Midway c i t allowed branch' entries' s₂ := by
    refine ⟨?_, by rw [hw]; exact hread, by rw [hw]; exact horderly, hallowed⟩
    rw [ha, Function.update_self, hmemory]
  refine ⟨follows.guarantee _ _ (hm'.writes (by rw [hw, hstore]) ?_ ⟨o, r, hevents, ho⟩), ?_⟩
  · intro j hj
    rw [ha, Function.update_of_ne hj]
  · rw [hrep]
    exact hQ s₂ hm' hw

theorem attempt_safe {Q : Except Exn Attempt → Scene → Prop}
    (h : Midway c i t allowed branch entries s)
    (hQ : ∀ s', Midway c i t allowed branch entries s' → Q (.ok { t with branch }) s') :
    Prog.safe ex R G attempt Q s := by
  apply step_safe follows (by trivial) h
  intro w hw hread _
  exact ⟨branch, entries, rfl, hread, rfl, hw.later rfl (Nat.le_succ _), h.allowed,
    fun s' hs' _ => hQ s' hs'⟩

/-- Every marker so far was made before a reading of the clock. -/
theorem now_safe {Q : Except Exn Nat → Scene → Prop} (h : Midway c i t allowed branch entries s)
    (hQ : ∀ n s', Midway c i t allowed branch entries s' → n < s'.world.instant →
      (∀ e ∈ entries, e.type = .leaf → ∃ t < n, e.uuid = .reset t ∨ ∃ u, e.uuid = .rewound t u) →
      Q (.ok n) s') :
    Prog.safe ex R G now Q s := by
  apply step_safe follows (by trivial) h
  intro w hw hread _
  refine ⟨branch, entries, rfl, hread, rfl, hw.later rfl (Nat.le_succ _), h.allowed, ?_⟩
  intro s' hs' hworld
  exact hQ w.instant s' hs' (by rw [hworld]; exact Nat.lt_succ_self _) (hread ▸ hw.dated)

theorem update_safe {Q : Except Exn Unit → Scene → Prop} {f : Attempt → Attempt}
    {branch' : Semora.Branch} (h : Midway c i t allowed branch entries s)
    (hf : f { t with branch } = { t with branch := branch' })
    (hQ : ∀ s', Midway c i t allowed branch' entries s' → Q (.ok ()) s') :
    Prog.safe ex R G (update f) Q s := by
  apply step_safe follows (by trivial) h
  intro w hw hread _
  exact ⟨branch', entries, hf, hread, rfl, hw.later rfl (Nat.le_succ _), h.allowed,
    fun s' hs' _ => hQ s' hs'⟩

/-- A marker moves the tip to where it points. -/
theorem appendLeaf_safe {Q : Except Exn Unit → Scene → Prop} {leaf : Option Uuid}
    (h : Midway c i t allowed branch entries s) (hallowed : allowed (path leaf))
    (hold : ∀ uuid, leaf = some uuid → ∃ old, chained entries uuid = some old)
    (hQ : ∀ entries' s', Midway c i t allowed branch entries' s' → tip entries' = leaf →
      Q (.ok ()) s') :
    Prog.safe ex R G (appendLeaf c leaf) Q s := by
  unfold appendLeaf
  refine (Prog.safe_bind _ _ _ _).mpr (now_safe follows h (fun n s₁ h₁ hn hdated => ?_))
  refine (Prog.safe_bind _ _ _ _).mpr (step_safe follows (by trivial) h₁ (fun w hw hread hle => ?_))
  obtain ⟨happend, hwell, htip⟩ := append_leaf (n := n) hw leaf (by rw [hread]; exact hdated)
    (by rw [hread]; exact hold)
  rw [hread] at happend hwell htip
  refine ⟨branch, _, rfl, happend, rfl, ⟨happend ▸ hwell, ?_⟩, by rwa [htip], ?_⟩
  · intro e he htype
    simp only [step, happend] at he
    rcases List.mem_append.mp he with he | he
    · obtain ⟨t, ht, hu⟩ := hdated e he htype
      exact ⟨t, by simp only [step]; omega, hu⟩
    · refine ⟨n, by simp only [step]; omega, ?_⟩
      rw [List.mem_singleton.mp he]
      cases leaf <;> simp [leafEntry]
  · intro s' hs' _
    exact hQ _ s' hs' htip

/-- Recording a message: the tip moves on by it, whether or not the conversation already held
the entry there. -/
theorem record_safe {Q : Except Exn Bool → Scene → Prop} {m : ModelMessage}
    (h : Midway c i t allowed branch entries s) (hparent : branch.parentUuid = tip entries)
    (hallowed : allowed (path (tip entries) ++ [body m]))
    (hQ : ∀ fresh entries' s', tip entries' = some (entryId (tip entries) (body m)) →
      Midway c i t allowed { branch with parentUuid := tip entries' } entries' s' →
      Q (.ok fresh) s') :
    Prog.safe ex R G (record c m) Q s := by
  unfold record
  refine (Prog.safe_bind _ _ _ _).mpr (attempt_safe follows h (fun s₁ h₁ => ?_))
  refine (Prog.safe_bind _ _ _ _).mpr (now_safe follows h₁ (fun n s₂ h₂ _ _ => ?_))
  refine (Prog.safe_bind _ _ _ _).mpr (step_safe follows (by trivial) h₂ (fun w hw hread hle => ?_))
  have happend := append_message hw m n
  rw [hread, ← hparent] at happend
  rcases happend with ⟨hsame, old, hold⟩ | ⟨hfresh, hread', hwell, htip⟩
  · -- The conversation holds the entry: nothing is appended, and the tip is moved to it.
    simp only [step, hsame]
    refine ⟨branch, entries, rfl, by simpa using hread, trivial,
      hw.later (by simp) (Nat.le_succ _), h.allowed, ?_⟩
    intro s₃ h₃ _
    refine (Prog.safe_bind _ _ _ _).mpr (update_safe follows h₃ rfl (fun s₄ h₄ => ?_))
    refine (Prog.safe_bind _ _ _ _).mpr (appendLeaf_safe follows h₄ ?_ ?_ ?_)
    · simpa [messageEntry, hparent] using hallowed
    · rintro uuid hu
      cases hu
      exact ⟨old, hold⟩
    · intro entries' s₅ h₅ htip
      have htip' : tip entries' = some (entryId (tip entries) (body m)) := hparent ▸ htip
      rw [← htip] at h₅
      exact hQ false entries' s₅ htip' h₅
  · simp only [step, hfresh]
    refine ⟨branch, _, rfl, hread', trivial, ⟨hread' ▸ hwell, ?_⟩, ?_, ?_⟩
    · intro e he htype
      simp only [hread'] at he
      rcases List.mem_append.mp he with he | he
      · obtain ⟨t, ht, hu⟩ := hw.dated e (hread ▸ he) htype
        exact ⟨t, by simp only; omega, hu⟩
      · rw [List.mem_singleton.mp he] at htype
        cases htype
    · rw [htip]
      simpa [messageEntry, hparent] using hallowed
    · intro s₃ h₃ _
      refine (Prog.safe_bind _ _ _ _).mpr (update_safe follows h₃ rfl (fun s₄ h₄ => ?_))
      rw [← htip] at h₄
      exact hQ true _ s₄ (hparent ▸ htip) h₄

/-- Appending messages one by one. -/
theorem append_safe {Q : Except Exn Unit → Scene → Prop} {messages : List ModelMessage}
    (h : Midway c i t allowed branch entries s) (hlinked : Linked branch entries)
    (hallowed : ∀ k, allowed (path (tip entries) ++ (messages.take k).map body))
    (hQ : ∀ branch' entries' s', Midway c i t allowed branch' entries' s' →
      Linked branch' entries' → branch'.messages = branch.messages ++ messages → Q (.ok ()) s') :
    Prog.safe ex R G (Branch.append c messages) Q s := by
  induction messages generalizing branch entries s with
  | nil => exact hQ branch entries s h hlinked (by simp)
  | cons m messages ih =>
    unfold Branch.append
    refine (Prog.safe_bind _ _ _ _).mpr (record_safe follows h hlinked.parent
      (by simpa using hallowed 1) (fun _ entries₁ s₁ htip h₁ => ?_))
    refine (Prog.safe_bind _ _ _ _).mpr (update_safe follows h₁ rfl (fun s₂ h₂ => ?_))
    have hpath : path (tip entries₁) = path (tip entries) ++ [body m] := by
      rw [htip, path_entryId]
    have hreach : reach none (branch.messages.map body) = tip entries := by
      rw [hlinked.bodies, tip_reach (h.read ▸ h.orderly.wellformed)]
    apply ih h₂
    · refine ⟨rfl, ?_, ?_⟩
      · simp [hlinked.bodies, hpath]
      · simp [hlinked.uuids, trail_append, hreach, trail, htip]
    · intro k
      rw [hpath]
      simpa using hallowed (k + 1)
    · intro branch' entries' s' h' hlinked' hmessages
      exact hQ branch' entries' s' h' hlinked' (by simp [hmessages])

/-- Giving up what follows the first messages. -/
theorem cut_safe {Q : Except Exn Unit → Scene → Prop} {kept : Nat}
    (h : Midway c i t allowed branch entries s) (hlinked : Linked branch entries)
    (hkept : kept ≤ branch.messages.length)
    (hallowed : allowed ((branch.messages.take kept).map body))
    (hQ : ∀ branch' entries' s', Midway c i t allowed branch' entries' s' →
      Linked branch' entries' → branch'.messages = branch.messages.take kept → Q (.ok ()) s') :
    Prog.safe ex R G (Branch.cut c branch kept) Q s := by
  unfold Branch.cut
  split
  · rename_i hlt
    have hleaf : (if kept = 0 then none else branch.uuids[kept - 1]?) =
        reach none ((branch.messages.take kept).map body) := by
      split
      · rename_i h0
        simp [h0]
      · rw [hlinked.uuids, trail_get _ (by omega) (by simpa using hkept), List.map_take]
    have hpath : path (reach none ((branch.messages.take kept).map body)) =
        (branch.messages.take kept).map body := by
      simp [path_reach]
    rw [hleaf]
    unfold rewind
    refine (Prog.safe_bind _ _ _ _).mpr ((Prog.safe_bind _ _ _ _).mpr
      (appendLeaf_safe follows h (by rwa [hpath]) ?_ (fun entries₁ s₁ h₁ htip => ?_)))
    · have hwell : Wellformed entries := h.read ▸ h.orderly.wellformed
      refine chained_front hwell _ ((branch.messages.drop kept).map body) ?_
      rw [← List.map_append, List.take_append_drop, hlinked.bodies, tip_reach hwell]
      exact fun uuid hu => hwell.tip hu
    · refine update_safe follows h₁ rfl (fun s₂ h₂ => ?_)
      refine update_safe follows h₂ rfl (fun s₃ h₃ => ?_)
      refine hQ _ entries₁ s₃ h₃ ⟨htip.symm, by rw [htip, hpath], ?_⟩ rfl
      simp only [hlinked.uuids, ← trail_take, List.map_take]
  · refine hQ branch entries s h hlinked ?_
    rw [List.take_of_length_le (by omega)]

/-- Moving to a history: the conversation gives up what is not a prefix of it and grows to it. -/
theorem replace_safe {Q : Except Exn Unit → Scene → Prop} {desired : List ModelMessage}
    (h : Midway c i t allowed branch entries s) (hlinked : Linked branch entries)
    (hallowed : ∀ k, allowed ((branch.messages.take (Branch.common branch.messages desired) ++
      (desired.drop (Branch.common branch.messages desired)).take k).map body))
    (hQ : ∀ branch' entries' s', Midway c i t allowed branch' entries' s' →
      Linked branch' entries' → gists branch'.messages = gists desired → Q (.ok ()) s') :
    Prog.safe ex R G (Branch.replace c desired) Q s := by
  unfold Branch.replace
  refine (Prog.safe_bind _ _ _ _).mpr (attempt_safe follows h (fun s₁ h₁ => ?_))
  refine (Prog.safe_bind _ _ _ _).mpr (cut_safe follows h₁ hlinked (common_le _ _)
    (by simpa using hallowed 0) (fun branch₂ entries₂ s₂ h₂ hlinked₂ hmessages => ?_))
  refine append_safe follows h₂ hlinked₂ (fun k => ?_) (fun branch₃ entries₃ s₃ h₃ hlinked₃ hm => ?_)
  · rw [← hlinked₂.bodies, hmessages, ← List.map_append]
    exact hallowed k
  · refine hQ branch₃ entries₃ s₃ h₃ hlinked₃ ?_
    have htake := common_take branch.messages desired
    simp only [gists] at htake
    rw [hm, hmessages, gists, List.map_append, htake, ← List.map_append, List.take_append_drop]
    rfl

/-- Opening a conversation: the branch is what it holds. -/
theorem opening_safe {Q : Except Exn Unit → Scene → Prop} {branchId : String}
    (h : Midway c i t allowed branch entries s)
    (hQ : ∀ branch' s', Midway c i t allowed branch' entries s' → Linked branch' entries →
      branch'.messages = messagesOf entries → Q (.ok ()) s') :
    Prog.safe ex R G (Branch.opening c branchId) Q s := by
  unfold Branch.opening opened
  refine (Prog.safe_bind _ _ _ _).mpr (step_safe follows (by trivial) h (fun w hw hread _ => ?_))
  refine ⟨branch, entries, rfl, hread, rfl, hw.later rfl (Nat.le_succ _), h.allowed, ?_⟩
  intro s₁ h₁ _
  refine (Prog.safe_bind _ _ _ _).mpr ((Prog.safe_bind _ _ _ _).mpr
    (now_safe follows h₁ (fun n s₂ h₂ _ _ => ?_)))
  refine step_safe follows (by trivial) h₂ (fun w' hw' hread' _ => ?_)
  refine ⟨branch, entries, rfl, hread', rfl, hw'.later rfl (Nat.le_succ _), h.allowed, ?_⟩
  intro s₃ h₃ _
  have hwell : Wellformed entries := h.read ▸ h.orderly.wellformed
  have hactive := activeBranch_trail hwell
  have hfilter : (activeBranch entries).filter (fun e => e.message.isSome) = activeBranch entries :=
    List.filter_eq_self.mpr hactive.2
  refine update_safe follows h₃ rfl (fun s₄ h₄ => ?_)
  refine hQ _ s₄ h₄ ⟨?_, ?_, ?_⟩ ?_
  · simp only [hread]
    rw [← List.getLast?_map, hactive.1]
    by_cases hempty : path (tip entries) = []
    · have hreach := tip_reach hwell
      rw [hempty] at hreach
      simp [trail, ← hreach]
    · rw [trail_last _ _ hempty, tip_reach hwell]
  · simp only [hread]
    exact hwell.messages
  · simp only [hread]
    rw [hfilter, hactive.1, hwell.messages]
  · simp only [hread]

end

end Semora.Proofs.Writing
