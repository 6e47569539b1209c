import DevOs.Ipc.Model
import DevOs.Lib.Chained
import Mathlib.Data.List.Nodup

/-!
# Servers and their clients

A server has a chain of lists of clients and a count of them. A connection is refused when the
server has a password and the given one is `NULL` or differs from it in the first
`LenServerPassword` bytes. That length is a number of characters, and a character has two bytes, so
only the first half of the password is compared. The lists, the count and the membership test agree
in every run. The broadcast counts a client as sent to whether `IpcSendMessage` takes the message or
refuses it, as it does where the client is the host itself or is no longer there.

Clients are their places in the table of clients, and handles and pool memory are always there.
-/

namespace DevOs.Ipc

open Chained Runs

abbrev unitsPerList : ℕ := 120

/-- A text of 16-bit characters, with what lies behind its terminator. -/
structure Text where
  chars : List ℕ
  behind : ℕ → ℕ
  chars_ne_zero : ∀ c ∈ chars, c ≠ 0 ∧ c < 2 ^ 16

namespace Text

def cell (x : Text) (i : ℕ) : ℕ :=
  if i < x.chars.length then x.chars.getD i 0
  else if i = x.chars.length then 0
  else x.behind (i - x.chars.length - 1)

def byte (x : Text) (j : ℕ) : ℕ := x.cell (j / 2) >>> (8 * (j % 2)) % 2 ^ 8

end Text

/-- `memcmp`, as its callers use it: whether the bytes are equal. The debug stop in front of the
comparison in `mem.asm` is left out. -/
def memcmp (x y : Text) (n : ℕ) : Bool := (List.range n).all fun j => x.byte j == y.byte j

/-- `SERVER`. `ServerPassword` and `LenServerPassword` are set together by `IpcServerCreate`. -/
structure Server where
  present : ℕ
  parentList : Option ℕ
  inListIndex : ℕ
  serverPassword : Option Text
  lenServerPassword : ℕ
  host : ℕ
  serverAddress : ℕ
  numClients : ℕ
  connectedClients : Chain (Option ℕ)
  len_eq : ∀ x, serverPassword = some x → lenServerPassword = x.chars.length

abbrev ServerTable := Chain Server

/-- `CLIENT`, with what `IpcIsValidClient` reads of it. `inMessageQueue` tells whether there is a
queue. -/
structure Client where
  present : ℕ
  indexInList : ℕ
  parentList : Option ℕ
  process : ℕ
  inMessageQueue : Bool
deriving DecidableEq, Repr

def ipcIsValidClient (clients : ℕ → Client) (process : Option ℕ) (client : ℕ) : Bool :=
  let c := clients client
  c.present != 0 && c.inMessageQueue &&
    (c.parentList.any fun l => l * unitsPerList + c.indexInList == client) &&
    process.all fun p => c.process == p

/-- A message that `IpcSendMessage` puts into the queue of its destination. -/
structure Post where
  source : ℕ
  destination : ℕ
  async : Bool
  body : Msg
deriving DecidableEq, Repr

def Server.lists (s : Server) : List (List (Option ℕ)) :=
  (List.range s.connectedClients.lists).map fun l =>
    (List.range unitsPerList).map fun i => s.connectedClients.entry (l * unitsPerList + i)

/-- The password test of `IpcServerConnect`. -/
def Server.refuses (s : Server) (serverPassword : Option Text) : Bool :=
  match s.serverPassword with
  | none => false
  | some x =>
    match serverPassword with
    | none => true
    | some y => !memcmp x y s.lenServerPassword

/-- The end of `IpcServerConnect`: the client takes the first free entry. -/
def Server.join (s : Server) (client : ℕ) : Server :=
  let (clients, i) := s.connectedClients.place unitsPerList Option.isNone none
  { s with connectedClients := clients.set i (some client), numClients := s.numClients + 1 }

namespace ServerTable

def isValidServer (t : ServerTable) (server : ℕ) : Bool :=
  let s := t.entry server
  s.present == 1 && s.parentList.any fun l => l * unitsPerList + s.inListIndex == server

def ipcGetServer (t : ServerTable) (serverIpAddress : ℕ) : Option ℕ :=
  if serverIpAddress = 0 then none
  else (List.range (t.lists * unitsPerList)).find? fun k =>
    (t.entry k).serverAddress == serverIpAddress && (t.entry k).present == 1

def isConnectedClient (t : ServerTable) (server client : ℕ) : Bool :=
  if !t.isValidServer server then false
  else (t.entry server).lists.any fun l => l.any fun x => x == some client

def ipcServerConnect (t : ServerTable) (clients : ℕ → Client) (serverIpAddress client : ℕ)
    (serverPassword : Option Text) : ServerTable × Option ℕ :=
  if !ipcIsValidClient clients none client then (t, none)
  else
    match t.ipcGetServer serverIpAddress with
    | none => (t, none)
    | some k =>
      if t.isConnectedClient k client then (t, some k)
      else if (t.entry k).refuses serverPassword then (t, none)
      else (t.set k ((t.entry k).join client), some k)

end ServerTable

/-- `IpcSendMessage` up to the search of a slot: with a source and a destination that it does not
refuse, the message is put into the queue. -/
def sendMessage (clients : ℕ → Client) (currentProcess source destination : ℕ) (async : Bool)
    (body : Msg) :
    Option Post :=
  if source == destination || !ipcIsValidClient clients (some currentProcess) source ||
      !ipcIsValidClient clients none destination then none
  else some ⟨source, destination, async, body⟩

/-- The inner loop of `IpcBroadcast`, with the clients that `IpcSendMessage` was called for. -/
def broadcastList (numClients : ℕ) : List (Option ℕ) → List ℕ → List ℕ
  | [], sent => sent
  | x :: xs, sent =>
    if numClients ≤ sent.length then sent
    else
      match x with
      | none => broadcastList numClients xs sent
      | some c => broadcastList numClients xs (sent ++ [c])

def broadcastLists (numClients : ℕ) : List (List (Option ℕ)) → List ℕ → List ℕ
  | [], sent => sent
  | l :: ls, sent =>
    if numClients ≤ sent.length then sent
      else broadcastLists numClients ls (broadcastList numClients l sent)

/-- The calls of `IpcSendMessage` count, whatever they return. -/
def ServerTable.ipcBroadcast (t : ServerTable) (clients : ℕ → Client) (currentProcess server : ℕ)
    (async : Bool) (message : Option Msg) : Bool × List Post :=
  match message with
  | none => (false, [])
  | some body =>
    if !t.isValidServer server then (false, [])
    else
      let s := t.entry server
      (true, (broadcastLists s.numClients s.lists []).filterMap fun c =>
        sendMessage clients currentProcess s.host c async body)

/-- A call of `IpcServerConnect`, with the table of clients at the time of the call. -/
structure ConnectCall where
  clients : ℕ → Client
  serverIpAddress : ℕ
  client : ℕ
  serverPassword : Option Text

def ConnectCall.valid (c : ConnectCall) : Bool := ipcIsValidClient c.clients none c.client

def ConnectCall.apply (t : ServerTable) (c : ConnectCall) : ServerTable × Option ℕ :=
  t.ipcServerConnect c.clients c.serverIpAddress c.client c.serverPassword

def ConnectCall.run (t : ServerTable) (c : ConnectCall) : Option ServerTable := some (c.apply t).1

theorem memcmp_self_of_chars {x y : Text} (h : y.chars = x.chars) :
    memcmp x y x.chars.length = true := by
  rw [memcmp, List.all_eq_true]
  intro j hj
  have hlt : j / 2 < x.chars.length := lt_of_le_of_lt (Nat.div_le_self j 2) (List.mem_range.mp hj)
  rw [beq_iff_eq, Text.byte, Text.byte, Text.cell, Text.cell, h, if_pos hlt, if_pos hlt]

def Server.Told (s : Server) (serverPassword : Option Text) : Prop :=
  ∃ x y, s.serverPassword = some x ∧ serverPassword = some y ∧ y.chars = x.chars

def Server.Tells (s : Server) (serverPassword : Option Text) : Prop :=
  ∀ x y, s.serverPassword = some x → serverPassword = some y → y.chars ≠ x.chars →
    memcmp x y s.lenServerPassword = false

/-- A client is let in for the right reason exactly when the comparison tells the passwords
apart. -/
theorem Server.refuses_iff (s : Server) (serverPassword : Option Text) :
    (s.refuses serverPassword = false ↔ s.serverPassword = none ∨ s.Told serverPassword) ↔
      s.Tells serverPassword := by
  rw [Server.refuses]
  cases hx : s.serverPassword with
  | none =>
    refine iff_of_true (iff_of_true rfl (Or.inl rfl)) fun x y hs => ?_
    rw [hx] at hs
    cases hs
  | some x =>
    cases serverPassword with
    | none =>
      refine iff_of_true (iff_of_false (show ¬true = false by decide) ?_) fun x' y hs hy => by
        cases hy
      rintro (h | ⟨x', y, -, hy, -⟩)
      · cases h
      · cases hy
    | some y =>
      have htold : s.Told (some y) ↔ y.chars = x.chars := by
        constructor
        · rintro ⟨x', y', hx', hy', h⟩
          rw [hx] at hx'
          cases hx'
          cases hy'
          exact h
        · exact fun h => ⟨x, y, hx, rfl, h⟩
      have hlen : s.lenServerPassword = x.chars.length := s.len_eq x hx
      dsimp only
      rw [Bool.not_eq_false', htold, or_iff_right (Option.some_ne_none x)]
      constructor
      · intro h x' y' hx' hy' hne
        rw [hx] at hx'
        cases hx'
        cases hy'
        exact Bool.eq_false_iff.mpr fun hcmp => hne (h.mp hcmp)
      · intro h
        constructor
        · intro hcmp
          by_contra hne
          exact Bool.false_ne_true ((h x y hx rfl hne).symm.trans hcmp)
        · intro heq
          rw [hlen]
          exact memcmp_self_of_chars heq

def Server.clients (s : Server) : List ℕ :=
  (List.range (s.connectedClients.lists * unitsPerList)).filterMap s.connectedClients.entry

/-- The lists hold the given clients in their first entries. -/
structure Server.Listed (s : Server) (clients : List ℕ) : Prop where
  used_eq : ∀ i, s.connectedClients.used unitsPerList Option.isNone i = clients[i]?.map some
  count : s.numClients = clients.length

theorem filterMap_range_getElem? (l : List ℕ) (n : ℕ) :
    (List.range n).filterMap (fun i => l[i]?) = l.take n := by
  induction n with
  | zero => rfl
  | succ n ih =>
    rw [List.range_succ, List.filterMap_append, ih, List.take_add_one]
    cases h : l[n]? with
    | none =>
      rw [List.filterMap_cons_none h]
      rfl
    | some c =>
      rw [List.filterMap_cons_some h]
      rfl

namespace Server.Listed

variable {s : Server} {clients : List ℕ} {client i : ℕ}

theorem entry_eq (h : s.Listed clients) (hi : i < s.connectedClients.lists * unitsPerList) :
    s.connectedClients.entry i = clients[i]? := by
  have hused := h.used_eq i
  cases hentry : s.connectedClients.entry i with
  | none =>
    have hnone : s.connectedClients.used unitsPerList Option.isNone i = none := by
      rw [Chain.used_eq_none, hentry]
      exact fun hx => Bool.false_ne_true hx.2.symm
    rw [hnone] at hused
    cases hc : clients[i]? with
    | none => rfl
    | some c =>
      rw [hc] at hused
      cases hused
  | some c =>
    have hsome : s.connectedClients.used unitsPerList Option.isNone i = some (some c) := by
      refine Chain.used_eq_some.mpr ⟨hi, ?_, hentry⟩
      rw [hentry]
      rfl
    rw [hsome] at hused
    obtain ⟨c', hc', heq⟩ := Option.map_eq_some_iff.mp hused.symm
    rw [hc', heq]

theorem lt_lists (h : s.Listed clients) (hi : i < clients.length) :
    i < s.connectedClients.lists * unitsPerList := by
  have hused := h.used_eq i
  rw [List.getElem?_eq_getElem hi] at hused
  exact (Chain.used_eq_some.mp hused).1

theorem clients_eq (h : s.Listed clients) : s.clients = clients := by
  have hle : clients.length ≤ s.connectedClients.lists * unitsPerList := by
    by_contra hlt
    have hin := h.lt_lists (Nat.lt_of_not_le hlt)
    exact lt_irrefl _ hin
  rw [Server.clients, List.filterMap_congr fun i hi => h.entry_eq (List.mem_range.mp hi),
    filterMap_range_getElem?, List.take_of_length_le hle]

theorem join (h : s.Listed clients) (client : ℕ) :
    (s.join client).Listed (clients ++ [client]) := by
  have hplace : (s.connectedClients.place unitsPerList Option.isNone none).2 = clients.length := by
    refine Chain.place_eq_of_used fun j => ?_
    rw [h.used_eq]
    by_cases hj : j < clients.length
    · rw [List.getElem?_eq_getElem hj]
      exact iff_of_true (Option.some_ne_none _) hj
    · rw [List.getElem?_eq_none (Nat.le_of_not_lt hj)]
      exact iff_of_false (not_not.mpr rfl) hj
  have hin : (s.connectedClients.place unitsPerList Option.isNone none).1.InChain unitsPerList
      (s.connectedClients.place unitsPerList Option.isNone none).2 :=
      Chain.place_inChain (by decide)
  have hset : ∀ j, (s.join client).connectedClients.used unitsPerList Option.isNone j =
      if j = clients.length then some (some client) else clients[j]?.map some := by
    intro j
    refine (Chain.used_set hin rfl j).trans ?_
    rw [hplace, Chain.place_used rfl, h.used_eq]
  refine ⟨fun j => ?_, ?_⟩
  · rw [hset]
    by_cases hj : j = clients.length
    · rw [if_pos hj, hj, List.getElem?_concat_length]
      rfl
    · rw [if_neg hj]
      by_cases hlt : j < clients.length
      · rw [List.getElem?_append_left hlt]
      · rw [List.getElem?_eq_none (Nat.le_of_not_lt hlt), List.getElem?_eq_none (by
          rw [List.length_append, List.length_singleton]
          omega)]
  · rw [List.length_append, List.length_singleton, ← h.count]
    rfl

end Server.Listed

theorem Server.flatten_lists (s : Server) :
    s.lists.flatten = (List.range (s.connectedClients.lists * unitsPerList)).map
      s.connectedClients.entry := by
  rw [Server.lists]
  generalize s.connectedClients.lists = n
  induction n with
  | zero => rfl
  | succ n ih =>
    have hrange : List.range ((n + 1) * unitsPerList) =
        List.range (n * unitsPerList) ++ (List.range unitsPerList).map (n * unitsPerList + ·) := by
      rw [Nat.add_mul, Nat.one_mul, List.range_add]
    rw [hrange, List.map_append, ← ih, List.map_map, List.range_succ (n := n), List.map_append,
      List.flatten_append]
    refine congrArg _ ?_
    exact List.append_nil _

theorem broadcastList_of_le {n : ℕ} {sent : List ℕ} (h : n ≤ sent.length) (l : List (Option ℕ)) :
    broadcastList n l sent = sent := by
  cases l with
  | nil => rfl
  | cons x xs =>
    rw [broadcastList.eq_def]
    exact if_pos h

theorem broadcastList_cons {n : ℕ} {sent : List ℕ} (h : ¬n ≤ sent.length) (x : Option ℕ)
    (xs : List (Option ℕ)) :
    broadcastList n (x :: xs) sent = broadcastList n xs (sent ++ x.toList) := by
  rw [broadcastList.eq_def]
  refine (if_neg h).trans ?_
  cases x with
  | none => rw [Option.toList_none, List.append_nil]
  | some c => rfl

theorem broadcastList_append (n : ℕ) (l l' : List (Option ℕ)) (sent : List ℕ) :
    broadcastList n (l ++ l') sent = broadcastList n l' (broadcastList n l sent) := by
  induction l generalizing sent with
  | nil => rfl
  | cons x xs ih =>
    rw [List.cons_append]
    by_cases hn : n ≤ sent.length
    · rw [broadcastList_of_le hn, broadcastList_of_le hn, broadcastList_of_le hn]
    · rw [broadcastList_cons hn, broadcastList_cons hn]
      exact ih _

theorem broadcastLists_eq (n : ℕ) (ls : List (List (Option ℕ))) (sent : List ℕ) :
    broadcastLists n ls sent = broadcastList n ls.flatten sent := by
  induction ls generalizing sent with
  | nil => rfl
  | cons l ls ih =>
    rw [broadcastLists, List.flatten_cons, broadcastList_append]
    by_cases hn : n ≤ sent.length
    · rw [if_pos hn, broadcastList_of_le hn, broadcastList_of_le hn]
    · rw [if_neg hn]
      exact ih _

theorem broadcastList_eq (l : List (Option ℕ)) (sent : List ℕ) :
    broadcastList (sent.length + (l.filterMap id).length) l sent = sent ++ l.filterMap id := by
  induction l generalizing sent with
  | nil => exact (List.append_nil sent).symm
  | cons x xs ih =>
    cases x with
    | none =>
      rw [List.filterMap_cons_none rfl]
      by_cases hn : sent.length + (xs.filterMap id).length ≤ sent.length
      · have hnil : xs.filterMap id = [] := List.eq_nil_of_length_eq_zero (by omega)
        rw [broadcastList_of_le hn, hnil, List.append_nil]
      · rw [broadcastList_cons hn, Option.toList_none, List.append_nil]
        exact ih sent
    | some c =>
      have hcons : (some c :: xs).filterMap id = c :: xs.filterMap id := rfl
      have hn : ¬sent.length + (c :: xs.filterMap id).length ≤ sent.length := by
        rw [List.length_cons]
        omega
      have hlen : sent.length + (c :: xs.filterMap id).length =
          (sent ++ [c]).length + (xs.filterMap id).length := by
        rw [List.length_cons, List.length_append, List.length_singleton]
        omega
      rw [hcons, broadcastList_cons hn, hlen]
      refine (ih (sent ++ [c])).trans ?_
      rw [List.append_assoc]
      rfl

theorem Server.Listed.broadcast {s : Server} {clients : List ℕ} (h : s.Listed clients) :
    broadcastLists s.numClients s.lists [] = clients := by
  have hall : s.lists.flatten.filterMap id = clients := by
    rw [s.flatten_lists, List.filterMap_map]
    exact h.clients_eq
  have hnum : s.numClients = ([] : List ℕ).length + (s.lists.flatten.filterMap id).length := by
    rw [hall, h.count]
    exact (Nat.zero_add _).symm
  rw [broadcastLists_eq, hnum, broadcastList_eq, hall, List.nil_append]

def Server.Connected (s : Server) (client : ℕ) : Prop :=
  ∃ i, s.connectedClients.InChain unitsPerList i ∧ s.connectedClients.entry i = some client

theorem Server.connected_iff {s : Server} {client : ℕ} :
    s.Connected client ↔ client ∈ s.clients := by
  rw [Server.clients, List.mem_filterMap]
  constructor
  · rintro ⟨i, hi, hentry⟩
    exact ⟨i, List.mem_range.mpr hi, hentry⟩
  · rintro ⟨i, hi, hentry⟩
    exact ⟨i, List.mem_range.mp hi, hentry⟩

theorem Server.Listed.connected_iff {s : Server} {clients : List ℕ} (h : s.Listed clients)
    {client : ℕ} :
    s.Connected client ↔ client ∈ clients := by
  rw [Server.connected_iff, h.clients_eq]

/-- The lists, the count and the membership test of a server agree. -/
structure ServerTable.Served (t : ServerTable) (k : ℕ) : Prop where
  no_twice : ∀ i j c, (t.entry k).connectedClients.InChain unitsPerList i →
    (t.entry k).connectedClients.InChain unitsPerList j →
    (t.entry k).connectedClients.entry i = some c →
    (t.entry k).connectedClients.entry j = some c → i = j
  counted : (t.entry k).numClients = (t.entry k).clients.length
  answered : ∀ c, t.isConnectedClient k c = true ↔ (t.entry k).Connected c

/-- A broadcast sends one message to every connected client, and none to others. -/
def ServerTable.Broadcasts (t : ServerTable) (clients : ℕ → Client) (currentProcess k : ℕ) : Prop :=
  ∀ async body, ∃ sent : List ℕ, sent.Nodup ∧ (∀ c, c ∈ sent ↔ (t.entry k).Connected c) ∧
    t.ipcBroadcast clients currentProcess k async (some body) =
      (true, sent.map fun c => ⟨(t.entry k).host, c, async, body⟩)

/-- Whoever is connected is there and is not the host, and the host belongs to the process that
broadcasts. -/
def ServerTable.Sendable (t : ServerTable) (clients : ℕ → Client) (currentProcess k : ℕ) : Prop :=
  ∀ c, (t.entry k).Connected c → (t.entry k).host ≠ c ∧
    ipcIsValidClient clients (some currentProcess) (t.entry k).host = true ∧
    ipcIsValidClient clients none c = true

/-- Every server that is there is a valid one and lists its clients, each of them once. -/
def ServerTable.Joined (t : ServerTable) : Prop :=
  ∀ k, (t.entry k).present = 1 → t.isValidServer k = true ∧ ∃ clients, clients.Nodup ∧
    (t.entry k).Listed clients

namespace ServerTable

variable {t : ServerTable} {k client : ℕ}

theorem isConnectedClient_iff (h : t.isValidServer k = true) :
    t.isConnectedClient k client = true ↔ (t.entry k).Connected client := by
  rw [isConnectedClient, h, if_neg (by decide), Server.connected_iff, Server.clients,
    ← List.any_flatten, (t.entry k).flatten_lists, List.any_map, List.any_eq_true,
    List.mem_filterMap]
  refine exists_congr fun i => and_congr_right fun _ => ?_
  exact beq_iff_eq

theorem present_of_ipcGetServer {address : ℕ} (h : t.ipcGetServer address = some k) :
    t.InChain unitsPerList k ∧ (t.entry k).present = 1 := by
  rw [ipcGetServer] at h
  split at h
  · cases h
  · have hmem := List.mem_of_find?_eq_some h
    have hp := List.find?_some h
    rw [Bool.and_eq_true, beq_iff_eq, beq_iff_eq] at hp
    exact ⟨List.mem_range.mp hmem, hp.2⟩

theorem Joined.served (h : t.Joined) (hk : (t.entry k).present = 1) : t.Served k := by
  obtain ⟨hvalid, clients, hnodup, hlisted⟩ := h k hk
  refine ⟨fun i j c hi hj hci hcj => ?_, ?_, fun c => isConnectedClient_iff hvalid⟩
  · rw [hlisted.entry_eq hi] at hci
    rw [hlisted.entry_eq hj] at hcj
    exact (List.getElem?_inj (List.getElem?_eq_some_iff.mp hci).1 hnodup).mp (hci.trans hcj.symm)
  · rw [hlisted.clients_eq]
    exact hlisted.count

theorem sendMessage_eq_some {table : ℕ → Client} {process source destination : ℕ} {async : Bool}
    {body : Msg} {post : Post} :
    sendMessage table process source destination async body = some post ↔
      (source ≠ destination ∧ ipcIsValidClient table (some process) source = true ∧
        ipcIsValidClient table none destination = true) ∧
        ⟨source, destination, async, body⟩ = post := by
  rw [sendMessage]
  split_ifs with h
  · refine iff_of_false nofun fun hsent => ?_
    obtain ⟨⟨hne, hsource, hdest⟩, -⟩ := hsent
    rw [hsource, hdest, beq_eq_false_iff_ne.mpr hne] at h
    exact Bool.false_ne_true h
  · rw [Bool.not_eq_true, Bool.or_eq_false_iff, Bool.or_eq_false_iff, beq_eq_false_iff_ne,
      Bool.not_eq_false', Bool.not_eq_false', and_assoc] at h
    rw [Option.some.injEq, and_iff_right h]

theorem Joined.broadcasts_iff (h : t.Joined) (hk : (t.entry k).present = 1) (table : ℕ → Client)
    (process : ℕ) :
    t.Broadcasts table process k ↔ t.Sendable table process k := by
  obtain ⟨hvalid, clients, hnodup, hlisted⟩ := h k hk
  have hposts (async : Bool) (body : Msg) : t.ipcBroadcast table process k async (some body) =
      (true, clients.filterMap fun c => sendMessage table process (t.entry k).host c async body) :=
      by
    rw [ipcBroadcast]
    dsimp only
    rw [hvalid, if_neg (by decide), hlisted.broadcast]
  constructor
  · intro hsent c hc
    obtain ⟨sent, -, hmem, heq⟩ := hsent true ⟨0, 0, 0⟩
    rw [hposts, Prod.mk.injEq] at heq
    have hpost := List.mem_map_of_mem
      (f := fun c => (⟨(t.entry k).host, c, true, ⟨0, 0, 0⟩⟩ : Post))
      ((hmem c).mpr hc)
    rw [← heq.2, List.mem_filterMap] at hpost
    obtain ⟨d, -, hd⟩ := hpost
    obtain ⟨hok, heq⟩ := sendMessage_eq_some.mp hd
    rw [Post.mk.injEq] at heq
    rw [← heq.2.1]
    exact hok
  · intro hok async body
    refine ⟨clients, hnodup, fun c => hlisted.connected_iff.symm, ?_⟩
    rw [hposts, ← List.filterMap_eq_map]
    refine congrArg _ (List.filterMap_congr fun c hc => ?_)
    exact sendMessage_eq_some.mpr ⟨hok c (hlisted.connected_iff.mpr hc), rfl⟩

/-- What a call does: nothing, or a client that was not connected to a server joins it. -/
theorem apply_cases (c : ConnectCall) :
    (c.apply t).1 = t ∧ (∀ k, t.ipcGetServer c.serverIpAddress = some k → c.valid = true →
        t.isConnectedClient k c.client = false → (t.entry k).refuses c.serverPassword = true) ∨
      ∃ k, t.ipcGetServer c.serverIpAddress = some k ∧ t.isConnectedClient k c.client = false ∧
        (t.entry k).refuses c.serverPassword = false ∧
        (c.apply t).1 = t.set k ((t.entry k).join c.client) := by
  rw [ConnectCall.apply, ipcServerConnect, ← ConnectCall.valid]
  cases hvalid : c.valid with
  | false => exact Or.inl ⟨rfl, nofun⟩
  | true =>
    rw [if_neg (by decide)]
    cases hserver : t.ipcGetServer c.serverIpAddress with
    | none => exact Or.inl ⟨rfl, nofun⟩
    | some k =>
      dsimp only
      cases hconn : t.isConnectedClient k c.client with
      | true =>
        rw [if_pos rfl]
        refine Or.inl ⟨rfl, fun j hj _ hnot => ?_⟩
        cases hj
        rw [hconn] at hnot
        cases hnot
      | false =>
        rw [if_neg (by decide)]
        cases hrefuses : (t.entry k).refuses c.serverPassword with
        | true =>
          rw [if_pos rfl]
          refine Or.inl ⟨rfl, fun j hj _ _ => ?_⟩
          cases hj
          exact hrefuses
        | false =>
          rw [if_neg (by decide)]
          exact Or.inr ⟨k, rfl, hconn, hrefuses, rfl⟩

theorem Joined.apply (h : t.Joined) (c : ConnectCall) : Joined (c.apply t).1 := by
  rcases apply_cases (t := t) c with ⟨hsame, -⟩ | ⟨k, hserver, hnot, -, happly⟩
  · rw [hsame]
    exact h
  · rw [happly]
    obtain ⟨-, hpresent⟩ := present_of_ipcGetServer hserver
    obtain ⟨hvalid, clients, hnodup, hlisted⟩ := h k hpresent
    have hfresh : c.client ∉ clients := by
      intro hmem
      have hconn := (isConnectedClient_iff hvalid).mpr (hlisted.connected_iff.mpr hmem)
      exact Bool.false_ne_true (hnot.symm.trans hconn)
    intro j hj
    by_cases hjk : j = k
    · have hentry : (t.set k ((t.entry k).join c.client)).entry k = (t.entry k).join c.client :=
        Function.update_self _ _ _
      subst hjk
      have hvalid' : isValidServer (t.set j ((t.entry j).join c.client)) j = true := by
        rw [isValidServer, hentry]
        exact hvalid
      rw [hentry]
      have hnodup' : (clients ++ [c.client]).Nodup :=
        List.nodup_append_comm.mp (List.nodup_cons.mpr ⟨hfresh, hnodup⟩)
      exact ⟨hvalid', clients ++ [c.client], hnodup', hlisted.join _⟩
    · have hentry : (t.set k ((t.entry k).join c.client)).entry j = t.entry j :=
        Function.update_of_ne hjk _ _
      rw [hentry] at hj ⊢
      obtain ⟨hvalid', hclients⟩ := h j hj
      refine ⟨?_, hclients⟩
      rw [isValidServer, hentry]
      exact hvalid'

end ServerTable

open ServerTable

/-- Servers as they are made: valid, with any password, and without clients. -/
def ServerTable.Fresh (t : ServerTable) : Prop :=
  ∀ k, (t.entry k).present = 1 →
    t.isValidServer k = true ∧ (t.entry k).numClients = 0 ∧
    (t.entry k).connectedClients = .initial none

theorem ServerTable.Fresh.joined {t : ServerTable} (h : t.Fresh) : t.Joined := by
  intro k hk
  obtain ⟨hvalid, hnum, hclients⟩ := h k hk
  refine ⟨hvalid, [], List.nodup_nil, fun i => ?_, hnum⟩
  rw [hclients]
  exact Chain.used_initial rfl

/-- The call lets its client in for the right reason: the server has no password, or it is the given
one. -/
def ConnectCall.Admits (t : ServerTable) (c : ConnectCall) : Prop :=
  ∀ k, t.ipcGetServer c.serverIpAddress = some k → c.valid = true →
    ¬(t.entry k).Connected c.client →
    (((c.apply t).1.entry k).Connected c.client ↔
      (t.entry k).serverPassword = none ∨ (t.entry k).Told c.serverPassword)

/-- Where the call gets to the password test, the test tells a wrong password from the right one. -/
def ConnectCall.Tells (t : ServerTable) (c : ConnectCall) : Prop :=
  ∀ k, t.ipcGetServer c.serverIpAddress = some k → c.valid = true →
    ¬(t.entry k).Connected c.client →
    (t.entry k).Tells c.serverPassword

theorem ServerTable.Joined.admits_iff {t : ServerTable} (h : t.Joined) (c : ConnectCall) :
    c.Admits t ↔ c.Tells t := by
  refine forall_congr' fun k => forall_congr' fun hserver => forall_congr' fun hvalid =>
    forall_congr' fun hnot => ?_
  obtain ⟨-, hpresent⟩ := present_of_ipcGetServer hserver
  obtain ⟨hserverValid, clients, -, hlisted⟩ := h k hpresent
  have hnotConn : t.isConnectedClient k c.client = false := by
    rw [Bool.eq_false_iff, Ne, isConnectedClient_iff hserverValid]
    exact hnot
  have hafter : ((c.apply t).1.entry k).Connected c.client ↔
      (t.entry k).refuses c.serverPassword = false := by
    rcases apply_cases (t := t) c with ⟨hsame, hrefuses⟩ | ⟨j, hj, -, hrefuses, happly⟩
    · rw [hsame]
      refine iff_of_false hnot fun hfalse => ?_
      exact Bool.false_ne_true (hfalse.symm.trans (hrefuses k hserver hvalid hnotConn))
    · rw [hserver] at hj
      cases hj
      refine iff_of_true ?_ hrefuses
      rw [happly, show (t.set k ((t.entry k).join c.client)).entry k =
        (t.entry k).join c.client from
        Function.update_self _ _ _, (hlisted.join c.client).connected_iff]
      exact List.mem_append_right _ (List.mem_singleton_self _)
  rw [hafter]
  exact Server.refuses_iff _ _

/-- In every table that connections reach, the lists, the count and the membership test of a server
agree, a call lets its client in for the right reason if and only if the password test tells the
passwords apart, and a broadcast sends one message to everybody connected if and only if no message
is refused. -/
theorem servers_served (t₀ t : ServerTable) (h₀ : t₀.Fresh)
    (h : Reaches ConnectCall.run anyStep t₀ t) :
    (∀ k, (t.entry k).present = 1 → t.Served k) ∧ (∀ c : ConnectCall, c.Admits t ↔ c.Tells t) ∧
      ∀ k, (t.entry k).present = 1 → ∀ clients currentProcess,
        t.Broadcasts clients currentProcess k ↔ t.Sendable clients currentProcess k := by
  have hj : t.Joined := h.invariant (fun s c s' hs _ hstep => by
    obtain rfl := Option.some.inj hstep
    exact hs.apply c) h₀.joined
  exact ⟨fun k hk => hj.served hk, fun c => hj.admits_iff c, fun k hk => hj.broadcasts_iff hk⟩

/-- The text `ab`, and the text `ac`. -/
def textAb : Text := ⟨[0x61, 0x62], fun _ => 0, by decide⟩
def textAc : Text := ⟨[0x61, 0x63], fun _ => 0, by decide⟩

/-- A server with the password `ab` at the first place, and no other server. -/
def smallServer : Server :=
  ⟨1, some 0, 0, some textAb, 2, 5, 9, 0, .initial none, fun _ h => by cases h; rfl⟩

def noServer : Server := ⟨0, none, 0, none, 0, 0, 0, 0, .initial none, fun _ h => by cases h⟩

def smallServers : ServerTable := ⟨1, fun k => if k = 0 then smallServer else noServer⟩

def smallClients (client : ℕ) : Client := ⟨1, client, some 0, 1, true⟩

theorem smallServers_fresh : smallServers.Fresh := by
  intro k hk
  by_cases hzero : k = 0
  · subst hzero
    exact ⟨rfl, rfl, rfl⟩
  · rw [show smallServers.entry k = noServer from if_neg hzero] at hk
    cases hk

def smallCall (client : ℕ) (password : Option Text) : ConnectCall :=
  ⟨smallClients, 9, client, password⟩

def twoConnected : ServerTable :=
  ((smallCall 4 (some textAb)).apply ((smallCall 3 (some textAb)).apply smallServers).1).1

theorem twoConnected_clients : (twoConnected.entry 0).clients = [3, 4] := by decide +kernel

/-- Both clients are there once and are sent a message, and a third one without a password is
refused, as it should be. -/
theorem smallServers_served :
    twoConnected.Served 0 ∧ ConnectCall.Admits twoConnected (smallCall 6 none) ∧
    twoConnected.Broadcasts smallClients 1 0 := by
  have hreach : Reaches ConnectCall.run anyStep smallServers twoConnected :=
    Reaches.head trivial (show ConnectCall.run smallServers (smallCall 3 (some textAb)) =
      some _ from rfl)
      (Reaches.head trivial (show ConnectCall.run _ (smallCall 4 (some textAb)) = some _ from rfl)
      (Reaches.refl _))
  have h := servers_served smallServers twoConnected smallServers_fresh hreach
  refine ⟨h.1 0 (by decide +kernel), (h.2.1 _).mpr fun k _ _ _ x y _ hy => ?_,
    (h.2.2 0 (by decide +kernel) smallClients 1).mpr fun c hc => ?_⟩
  · cases hy
  · rw [Server.connected_iff, twoConnected_clients] at hc
    rcases List.mem_cons.mp hc with rfl | hc
    · decide +kernel
    · rw [List.mem_singleton.mp hc]
      decide +kernel

/-- The client with the password `ac` is let in, and a host that is a client of its own server is
sent nothing. -/
theorem wrongPassword_admitted :
    smallServers.Fresh ∧
    ((ConnectCall.apply smallServers (smallCall 3 (some textAc))).1.entry 0).Connected 3 ∧
      ¬ConnectCall.Admits smallServers (smallCall 3 (some textAc)) ∧
      ((ConnectCall.apply smallServers (smallCall 5 (some textAb))).1.entry 0).Connected 5 ∧
      (ConnectCall.apply smallServers (smallCall 5 (some textAb))).1.ipcBroadcast smallClients
        1 0 true
        (some ⟨1, 0, 0⟩) = (true, []) := by
  have hin : ((ConnectCall.apply smallServers (smallCall 3 (some textAc))).1.entry 0).Connected 3 :=
    ⟨0, by decide, rfl⟩
  refine ⟨smallServers_fresh, hin, fun h => ?_, ⟨0, by decide, rfl⟩, by decide +kernel⟩
  have hout : ¬(smallServers.entry 0).Connected 3 := by
    rintro ⟨i, -, hi⟩
    cases hi
  rcases (h 0 rfl rfl hout).mp hin with hnone | ⟨x, y, hx, hy, heq⟩
  · cases hnone
  · cases hx
    cases hy
    cases heq

end DevOs.Ipc
