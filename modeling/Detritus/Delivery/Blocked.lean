import Detritus.Delivery.Contents

/-! Entries that the server never takes.

A run ships its entries in the order of their names and stops at the first one that is not
acknowledged. An entry that is refused whenever it is sent, say because its metadata is too
long, is therefore as far as any run gets: it stays, and so does everything behind it. -/
namespace Detritus.Delivery
open Files Protocol Process Client
open Server hiding Crates Env Response World attempt call execAs file

section Refusal
variable {κ : Type} {site : Site κ} {mime : Mime} {s t : ServerState Unit} {C : Crates}
  {config : ShipConfig} {e : CrashEnvelope} {endpoint : Url} {token : String}
  {request : HttpRequest}

/-- A report that is too large as a whole or not acceptable, whatever the limiter says. -/
def Hopeless (C : Crates) (site : Site κ) (token : String) (config : ShipConfig) (e : CrashEnvelope) :
    Prop :=
  ∀ sent encodings, compressEnvelope C.compress config e = .ok (sent, encodings) →
    BODY_LIMIT < (sent.writeToWithBoundaryAndEncodings C.json DEFAULT_BOUNDARY encodings).length ∨
    ∀ context, site.authenticate token = some context →
      ∀ admitted, ¬ Acceptable site.crates site.app context admitted sent

/-- What is hopeless is refused. -/
theorem Hopeless.refused (h : Hopeless C site token config e) (hlink : Linked C site mime)
    (hsound : Sound C mime config e) (hrequest : requestFor C endpoint token config e = .ok request)
    (hrest : AtRest site.env site.app.storage s)
    (hsupplied : Supplied site (site.calls (.ok request)) s) {answer : Except HttpError Response}
    (hpeer : site.peer request s = some (answer, t)) : outcome answer ≠ .ok () := by
  obtain ⟨sent, encodings, hcompress, heq⟩ := requestFor_ok hrequest
  have hauth : request.authorization = "Bearer " ++ token := by rw [heq]
  by_cases hurl : request.url = site.url
  · by_cases hbody : request.body.length ≤ BODY_LIMIT
    · cases hcontext : site.authenticate token with
      | none =>
        rw [site.peer_unauthorized hurl hbody hauth hcontext] at hpeer
        obtain ⟨rfl, -⟩ := result_eq hpeer
        exact fun hok => (by cases hok)
      | some context =>
        obtain ⟨result, u, hpeer', -, hiff⟩ := peer_acceptable hlink hsound.keeps hcompress
          (hsound.framed sent encodings hcompress) hrequest (ready_of_supplied hrest hsupplied) hurl hbody hcontext
        rw [hpeer'] at hpeer
        obtain ⟨rfl, -⟩ := result_eq hpeer
        cases result with
        | error error =>
          rw [outcome_error]
          exact fun hok => (by cases hok)
        | ok x =>
          have hlarge : ¬ BODY_LIMIT <
              (sent.writeToWithBoundaryAndEncodings C.json DEFAULT_BOUNDARY encodings).length := by
            rw [heq] at hbody
            exact Nat.not_lt.mpr hbody
          exact absurd (hiff.mp ⟨x, rfl⟩) ((h sent encodings hcompress).resolve_left hlarge context hcontext _)
    · rw [site.peer_tooLarge hurl (Nat.lt_of_not_le hbody)] at hpeer
      obtain ⟨rfl, -⟩ := result_eq hpeer
      exact fun hok => (by cases hok)
  · rw [Site.peer, if_pos hurl] at hpeer
    obtain ⟨rfl, -⟩ := result_eq hpeer
    exact fun hok => (by cases hok)

/-- A conversation does not get past a report that is hopeless. -/
theorem pass_blocked (hlink : Linked C site mime) {reads : List (Except ShipError CrashEnvelope)} {k : Nat}
    (hk : reads[k]? = some (.ok e)) (hsound : Sound C mime config e) (hhopeless : Hopeless C site token config e)
    (hrest : AtRest site.env site.app.storage s)
    (hsupplied : Supplied site ((reads.map (· >>= requestFor C endpoint token config)).map site.calls).sum s) :
    ∃ n error t, site.peer.pass (reads.map (· >>= requestFor C endpoint token config)) s =
      some ((n, some error), t) ∧ n ≤ k := by
  induction reads generalizing s k with
  | nil => cases hk
  | cons read rest ih =>
    rw [List.map_cons] at hsupplied ⊢
    cases hrequest : read >>= requestFor C endpoint token config with
    | error error => exact ⟨0, error, s, rfl, Nat.zero_le _⟩
    | ok request =>
      obtain ⟨e', rfl, hrequest'⟩ := of_bind_ok hrequest
      rw [hrequest, List.map_cons, List.sum_cons] at hsupplied
      have hfirst : Supplied site (site.calls (.ok request)) s :=
        fun n hn => hsupplied n (Nat.lt_of_lt_of_le hn (by omega))
      obtain ⟨answer, u, hpeer, hcalls⟩ := peer_answers hlink hrequest' hrest hfirst
      rw [Peer.pass, hpeer, Option.bind_some]
      cases houtcome : outcome answer with
      | error error => exact ⟨0, error, u, rfl, Nat.zero_le _⟩
      | ok _ =>
        cases k with
        | zero =>
          obtain rfl := Except.ok.inj (Option.some.inj hk)
          exact absurd houtcome (hhopeless.refused hlink hsound hrequest' hrest hfirst hpeer)
        | succ k =>
          obtain ⟨sent, encodings, -, heq⟩ := requestFor_ok hrequest'
          have hleft := site.peer_outcome (by rw [heq]) hrest hpeer
          rw [houtcome] at hleft
          obtain ⟨m, index, -, hstored⟩ := hleft
          obtain ⟨n, error, t, hpass, hn⟩ := ih hk hstored.rest
            fun n hn => hsupplied n (by have := hcalls houtcome; omega)
          refine ⟨n + 1, error, t, ?_, Nat.succ_le_succ hn⟩
          dsimp only
          rw [hpass]
          rfl

end Refusal

/-! ### Runs -/

section Runs
variable {κ ι : Type} {site : Site κ} {mime : Mime} {s t : ServerState Unit} {C : Crates}
  {config : ShipConfig} {e : CrashEnvelope} {endpoint : Url} {token : String} {env : Env} {i : ι}
  {u v w : ClientState ι} {spool : Path} {names : List String} {x : String}

theorem not_mem_take_of_le {k n : Nat} (hsorted : names.Pairwise (· < ·)) (hk : names[k]? = some x) (hn : n ≤ k)
    {y : String} (hy : x ≤ y) : y ∉ names.take n := by
  intro hmem
  obtain ⟨j, hj, rfl⟩ := List.getElem_of_mem hmem
  rw [List.length_take] at hj
  obtain ⟨hlt, rfl⟩ := List.getElem?_eq_some_iff.mp hk
  rw [List.getElem_take] at hy
  exact absurd (List.pairwise_iff_getElem.mp hsorted j k (by omega) hlt (by omega)) (not_lt_of_ge hy)

/-- **A run gets no further than an entry that is hopeless**, and ends with an error. -/
theorem shipPending_blocked (hlink : Linked C site mime) (h : Proceeds C site spool endpoint token config env w s names)
    (hx : x ∈ names) (hread : envelopeAt C w.state.disk.content (pendingAt spool x) = .ok e)
    (hsound : Sound C mime config e) (hhopeless : Hopeless C site token config e) :
    ∃ error w' t, (shipPending C spool endpoint token config).run.run (site.peer.exec env i) (w, s) =
        some (.error error, w', t) ∧
      ∀ y, x ≤ y → (view spool w'.state.disk).pending y = (view spool w.state.disk).pending y := by
  obtain ⟨k, hk⟩ := List.getElem?_of_mem hx
  have hreads : (names.map fun x => envelopeAt C w.state.disk.content (pendingAt spool x))[k]? =
      some (.ok e) := by
    rw [List.getElem?_map, hk, Option.map_some, hread]
  have hrequests : (names.map fun x => envelopeAt C w.state.disk.content (pendingAt spool x)).map
      (· >>= requestFor C endpoint token config) = names.map fun x =>
      requestAt C w.state.disk.content endpoint token config (pendingAt spool x) := List.map_map ..
  obtain ⟨n, error, t, hpass, hn⟩ := pass_blocked hlink hreads hsound hhopeless h.rest
    (by rw [hrequests, List.map_map]; exact h.supplied)
  rw [hrequests] at hpass
  obtain ⟨r, v, hrun, ⟨rfl, rfl, m, -, hview⟩, -⟩ :=
    shipPending_leads (i := i) h.faultless h.sorted h.pending h.workable h.locals hpass
  refine ⟨error, v.1, v.2, hrun, fun y hy => ?_⟩
  rw [hview, SpoolView.foldl_move_pending, if_neg (not_mem_take_of_le h.sorted hk hn hy)]
  rfl

/-- Runs one after the other, with what they end with. Between them the server may have gone any
way, and other entries may have come. -/
inductive Rounds (C : Crates) (site : Site κ) (spool : Path) (endpoint : Url) (token : String)
    (config : ShipConfig) : ClientState ι → List (Except ShipError Nat) → ClientState ι → Prop
  | none (w : ClientState ι) : Rounds C site spool endpoint token config w [] w
  | ship {w u v : ClientState ι} {rs : List (Except ShipError Nat)} {env : Env} {i : ι}
      {s t : ServerState Unit} {names : List String} {r : Except ShipError Nat} :
      Rounds C site spool endpoint token config w rs u → Proceeds C site spool endpoint token config env u s names →
      (shipPending C spool endpoint token config).run.run (site.peer.exec env i) (u, s) = some (r, v, t) →
      Rounds C site spool endpoint token config w (rs ++ [r]) v
  | meanwhile {w u v : ClientState ι} {rs : List (Except ShipError Nat)} :
      Rounds C site spool endpoint token config w rs u →
      (∀ x entry, (view spool u.state.disk).pending x = some entry →
        (view spool v.state.disk).pending x = some entry) →
      Rounds C site spool endpoint token config w rs v

/-- An entry that is still there is still read as it was. -/
theorem envelopeAt_of_pending (hlocal : Local C w.state.disk.content (pendingAt spool x))
    {entry : SpoolEntry} (hw : (view spool w.state.disk).pending x = some entry)
    (hu : (view spool u.state.disk).pending x = some entry) :
    envelopeAt C u.state.disk.content (pendingAt spool x) =
      envelopeAt C w.state.disk.content (pendingAt spool x) := by
  have hthere : (w.state.disk.dir (pendingAt spool x)).isSome = true := by
    rw [← entryAt_isSome]
    exact Option.isSome_of_mem hw
  have hsame := sameTree_of_entryAt (hu.trans hw.symm) hthere
  refine envelopeAt_congr ?_ hlocal
  rintro q ⟨rest, rfl⟩
  exact hsame.files rest

/-- What each run leaves where it is, as long as an entry is there, many runs leave there. -/
theorem Rounds.blocked {rs : List (Except ShipError Nat)} {first : SpoolEntry}
    (hrounds : Rounds C site spool endpoint token config w rs v)
    (hfirst : (view spool w.state.disk).pending x = some first)
    (hrun : ∀ {env : Env} {i : ι} {u : ClientState ι} {s : ServerState Unit} {names : List String},
      Proceeds C site spool endpoint token config env u s names →
      (view spool u.state.disk).pending x = some first →
      ∃ error w' t, (shipPending C spool endpoint token config).run.run (site.peer.exec env i) (u, s) =
          some (.error error, w', t) ∧
        ∀ y, x ≤ y → (view spool w'.state.disk).pending y = (view spool u.state.disk).pending y) :
    (∀ y entry, x ≤ y → (view spool w.state.disk).pending y = some entry →
      (view spool v.state.disk).pending y = some entry) ∧ ∀ r ∈ rs, ∃ error, r = .error error := by
  induction hrounds with
  | none => exact ⟨fun _ _ _ h => h, fun r hr => absurd hr List.not_mem_nil⟩
  | meanwhile _ hkept ih =>
    obtain ⟨hstay, hfail⟩ := ih
    exact ⟨fun y entry hy hw => hkept y entry (hstay y entry hy hw), hfail⟩
  | ship _ hproceeds hrun' ih =>
    obtain ⟨hstay, hfail⟩ := ih
    obtain ⟨error, w', t', hrun, hpending⟩ := hrun hproceeds (hstay x first (le_refl x) hfirst)
    rw [hrun'] at hrun
    obtain ⟨rfl, hstate⟩ := result_eq hrun
    obtain ⟨rfl, -⟩ := Prod.mk.inj hstate
    refine ⟨fun y entry hy hw => (hpending y hy).trans (hstay y entry hy hw), fun r hr => ?_⟩
    rcases List.mem_append.mp hr with hr | hr
    · exact hfail r hr
    · exact ⟨error, List.mem_singleton.mp hr⟩

/-- **An entry that is hopeless blocks the spool.** However often its entries are shipped, every
run ends with an error, and the entry and those behind it stay where they are. -/
theorem hopeless_blocks (hlink : Linked C site mime) {rs : List (Except ShipError Nat)}
    (hx : ((view spool w.state.disk).pending x).isSome = true)
    (hlocal : Local C w.state.disk.content (pendingAt spool x))
    (hread : envelopeAt C w.state.disk.content (pendingAt spool x) = .ok e)
    (hsound : Sound C mime config e) (hhopeless : Hopeless C site token config e)
    (hrounds : Rounds C site spool endpoint token config w rs v) :
    (∀ y entry, x ≤ y → (view spool w.state.disk).pending y = some entry →
      (view spool v.state.disk).pending y = some entry) ∧ ∀ r ∈ rs, ∃ error, r = .error error := by
  obtain ⟨first, hfirst⟩ := Option.isSome_iff_exists.mp hx
  refine hrounds.blocked hfirst fun hproceeds hthere => ?_
  have hmem := (hproceeds.pending x).mpr (Option.isSome_of_mem hthere)
  have hread' := (envelopeAt_of_pending hlocal hfirst hthere).trans hread
  exact shipPending_blocked hlink hproceeds hmem hread' hsound hhopeless

end Runs

/-! A server that takes no dump at all. -/

def closedSite : Site Unit :=
  {localSite with app := ⟨⟨["data"]⟩, 0, .default, .empty⟩}

theorem closedSite_linked : Linked strictCrates closedSite CrashEnvelope.fewTypes :=
  ⟨rfl, rfl, plainParser_labelling _⟩

theorem seven_hopeless : Hopeless strictCrates closedSite "t" .default sevenReport := by
  intro sent encodings h
  obtain ⟨rfl, -⟩ := Prod.mk.inj (Except.ok.inj h)
  exact .inr fun context _ admitted ha => absurd ha.dump (by decide)

theorem twoEntries_read : envelopeAt strictCrates twoEntries.state.disk.content
    (pendingAt ["spool"] "a") = .ok sevenReport :=
  (List.cons.inj twoEntries_reads).1

theorem closedSite_calls : closedSite.calls = localSite.calls := by
  funext request
  cases request <;> rfl

theorem closed_proceeds : Proceeds strictCrates closedSite ["spool"] ⟨"http://localhost/"⟩ "t" .default
    quietEnv twoEntries emptyState ["a", "b"] where
  faultless := twoEntries_proceeds.faultless
  workable := twoEntries_proceeds.workable
  sorted := twoEntries_proceeds.sorted
  pending := twoEntries_proceeds.pending
  locals := twoEntries_proceeds.locals
  rest := emptyState_atRest
  supplied := by
    rw [closedSite_calls]
    exact twoEntries_proceeds.supplied

/-- Neither entry leaves the spool. -/
theorem hopeless_blocks_two : ∃ error w',
    Rounds strictCrates closedSite ["spool"] ⟨"http://localhost/"⟩ "t" .default twoEntries [.error error] w' ∧
    ∀ x ∈ ["a", "b"], (view ["spool"] w'.state.disk).pending x =
      (view ["spool"] twoEntries.state.disk).pending x := by
  obtain ⟨error, w', t, hrun, -⟩ := shipPending_blocked (i := ()) closedSite_linked closed_proceeds (.head _)
    twoEntries_read seven_sound seven_hopeless
  have hrounds := Rounds.ship (.none twoEntries) closed_proceeds hrun
  refine ⟨error, w', hrounds, fun x hx => ?_⟩
  obtain ⟨entry, hentry⟩ := Option.isSome_iff_exists.mp ((twoEntries_pending x).mp hx)
  rw [hentry]
  have hle : ∀ x ∈ ["a", "b"], "a" ≤ x := by decide
  exact (hopeless_blocks closedSite_linked ((twoEntries_pending "a").mp (.head _)) (twoEntries_local "a")
    twoEntries_read seven_sound seven_hopeless hrounds).1 x entry (hle x hx) hentry

end Detritus.Delivery
