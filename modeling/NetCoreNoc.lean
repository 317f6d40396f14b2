import NetCoreNoc.Runs
import NetCoreNoc.Decay
import NetCoreNoc.Bursts
import NetCoreNoc.Components
import NetCoreNoc.Situations.Table
import NetCoreNoc.Situations.Lifecycle
import NetCoreNoc.Correlate.Grouping
import NetCoreNoc.Correlate.Evidence
import NetCoreNoc.Correlate.Placement
import NetCoreNoc.Correlate.Recall
import NetCoreNoc.Correlate.Preview
import NetCoreNoc.Correlate.ClearPairs
import NetCoreNoc.Correlate.Window
import NetCoreNoc.Writeback
import NetCoreNoc.Correlate.Learned
import NetCoreNoc.Correlate.Affinity
import NetCoreNoc.Correlate.Saturation
import NetCoreNoc.Correlate.Episodes
import NetCoreNoc.Ingest.Process
import NetCoreNoc.Intake.Feed
import NetCoreNoc.Intake.Isolation
import NetCoreNoc.Maintenance.Rules
import NetCoreNoc.Maintenance.Table
import NetCoreNoc.Maintenance.Backlog
import NetCoreNoc.Maintenance.Decide
import NetCoreNoc.Maintenance.RuleRows
import NetCoreNoc.Maintenance.Ledger
import NetCoreNoc.Maintenance.Surfacing
import NetCoreNoc.Maintenance.Transitions
import NetCoreNoc.Maintenance.Suspended
import NetCoreNoc.Operate.Persistence
import NetCoreNoc.Operate.Engine
import NetCoreNoc.Earliest
import NetCoreNoc.Operate.Upkeep
import NetCoreNoc.Operate.Proposals
import NetCoreNoc.Operate.Membership
import NetCoreNoc.Operate.Arrivals
import NetCoreNoc.Operate.Replay
import NetCoreNoc.Operate.WhatIf
import NetCoreNoc.Operate.Identity
import NetCoreNoc.Operate.Restart
import NetCoreNoc.Operate.Restructure
import NetCoreNoc.Operate.Filing
import NetCoreNoc.Operate.Occurrence
import NetCoreNoc.Operate.Gaps
import NetCoreNoc.Parsing
import NetCoreNoc.Store.Connection
import NetCoreNoc.Store.Placeholders
import NetCoreNoc.Store.Atomicity
import NetCoreNoc.Store.Savepoints
import NetCoreNoc.Spool.Frame
import NetCoreNoc.Spool.Disk
import NetCoreNoc.Spool.Follow
import NetCoreNoc.Spool.Drain
import NetCoreNoc.Spool.Damage
import NetCoreNoc.Spool.Sequence
import NetCoreNoc.Spool.Prune
import NetCoreNoc.Spool.Replay
import NetCoreNoc.Snmp.Ber
import NetCoreNoc.Snmp.Usm
import NetCoreNoc.Snmp.Receiver
import NetCoreNoc.Snmp.Quarantine
import NetCoreNoc.Snmp.Admission
import NetCoreNoc.Api.Governance
import NetCoreNoc.Noc.Lifecycle
import NetCoreNoc.Noc.Vault
import NetCoreNoc.Noc.Leases
import NetCoreNoc.Audit.Log
import NetCoreNoc.Audit.Tamper
import NetCoreNoc.Ingest.Records
import NetCoreNoc.Evaluation.Rates
import NetCoreNoc.Evaluation.Shadow
import NetCoreNoc.Noc.AgentRuns
import NetCoreNoc.Operate.League
import NetCoreNoc.Operate.Lifecycle
import NetCoreNoc.Evaluation.Corpus
import NetCoreNoc.Evaluation.Seal
import NetCoreNoc.Api.Projection
import NetCoreNoc.Evaluation.Promotion
import NetCoreNoc.Noc.Conclusion
import NetCoreNoc.Noc.Credential
import NetCoreNoc.Correlate.Storm
import NetCoreNoc.Operate.Entities
import NetCoreNoc.Operate.Formula
import NetCoreNoc.Operate.FastPath
import NetCoreNoc.Correlate.Promised
import NetCoreNoc.Correlate.Features
import NetCoreNoc.Noc.Organization
import NetCoreNoc.Operate.Feedback
import NetCoreNoc.Operate.Labels
import NetCoreNoc.Api.Throttle
import NetCoreNoc.Snmp.Clocks
import NetCoreNoc.Snmp.Keys
import NetCoreNoc.Maintenance.FirstRaise
import NetCoreNoc.Ingest.Isolation
import NetCoreNoc.Dataset.Incidents
import NetCoreNoc.Noc.Clock
import NetCoreNoc.Rounding
import NetCoreNoc.Greedy
import NetCoreNoc.Model.Derive
import NetCoreNoc.Shapley
import NetCoreNoc.Model.Trees
import NetCoreNoc.Model.Cart
import NetCoreNoc.Model.Attribution
import NetCoreNoc.Dataset.Capture
import NetCoreNoc.Dataset.Accounting
import NetCoreNoc.Noc.Token
import NetCoreNoc.Noc.Hearing
import NetCoreNoc.Noc.Heard
import NetCoreNoc.Api.RateLimit
import NetCoreNoc.Dataset.Retention
import NetCoreNoc.Policies.Stored
import NetCoreNoc.Noc.CircuitImports
import NetCoreNoc.Identity.Sessions
import NetCoreNoc.Identity.Links
import NetCoreNoc.Identity.Admins
import NetCoreNoc.Model.Grown
import NetCoreNoc.Model.Extremes
import NetCoreNoc.Json.Utf8
import NetCoreNoc.Identity.Vault
import NetCoreNoc.Identity.Sealing
import NetCoreNoc.Identity.Sealed
import NetCoreNoc.Identity.AtRest
