import OpsScripts.Core.Text
import OpsScripts.Core.Replacement
import OpsScripts.Core.Regex
import OpsScripts.Core.RegexSyntax
import OpsScripts.Core.KeyValue
import OpsScripts.Core.Occurrences
import OpsScripts.Core.RegexLines
import OpsScripts.Core.Substitution
import OpsScripts.Core.PythonRegex
import OpsScripts.Core.Json
import OpsScripts.Core.JsonRoundTrip
import OpsScripts.Core.Csv
import OpsScripts.Core.Wildcard
import OpsScripts.Core.DateTime
import OpsScripts.Core.CloneStore
import OpsScripts.Core.Transition
import OpsScripts.Core.Interruption
import OpsScripts.AddUser.Snapshot
import OpsScripts.AddUser.Compare
import OpsScripts.AddUser.Delta
import OpsScripts.AddUser.Rows
import OpsScripts.AddUser.RowValues
import OpsScripts.AddUser.Dismissal
import OpsScripts.AddUser.History
import OpsScripts.AddUser.UniqueName
import OpsScripts.AddUser.OrgUnits
import OpsScripts.AddUser.CreateTree
import OpsScripts.AddUser.Directory
import OpsScripts.AddUser.ChangeTwice
import OpsScripts.AddUser.SqlText
import OpsScripts.AddUser.Credentials
import OpsScripts.Core.Evolution
import OpsScripts.AddUser.Synchronisation
import OpsScripts.AddUser.Accounts
import OpsScripts.FileSync.Scripts
import OpsScripts.FileSync.Scheduler
import OpsScripts.FileSync.Exclusion
import OpsScripts.FileSync.Network
import OpsScripts.FileSync.Waiting
import OpsScripts.FileSync.Deadlock
import OpsScripts.FileSync.Files
import OpsScripts.FileSync.FlatCopy
import OpsScripts.FileSync.Mirror
import OpsScripts.Core.FileTree
import OpsScripts.FileSync.Cleanup
import OpsScripts.Catalogue.Entries
import OpsScripts.Catalogue.VeeamAgent
import OpsScripts.Catalogue.Failures
import OpsScripts.Catalogue.Sep
import OpsScripts.Catalogue.Expiry
import OpsScripts.Catalogue.Completeness
import OpsScripts.Catalogue.Counters
import OpsScripts.OneC.Rac
import OpsScripts.OneC.Sessions
import OpsScripts.OneC.Export
import OpsScripts.OneC.Faithful
import OpsScripts.OneC.Report
import OpsScripts.OneC.ReportKeys
import OpsScripts.OneC.Graylog
import OpsScripts.OneC.Discovery
import OpsScripts.OneC.Sesall
import OpsScripts.OneC.Packets
import OpsScripts.OneC.SesallRun
import OpsScripts.OneC.Licences
import OpsScripts.OneC.LicenceSlots
import OpsScripts.OneC.LicenceUse
import OpsScripts.OneC.Presentation
import OpsScripts.OneC.LicenceOrder
import OpsScripts.Reports.PasswordExpiry
import OpsScripts.Reports.Identifiers
import OpsScripts.Reports.GroupUsers
import OpsScripts.Reports.ScheduledTasks
import OpsScripts.Reports.UserGroups
import OpsScripts.Agents.Installers
import OpsScripts.Agents.Convergence
import OpsScripts.Core.JsonStrings
import OpsScripts.Core.Shell
import OpsScripts.Core.JsonText
import OpsScripts.Core.LastWrites
import OpsScripts.Zabbix.Certificates
import OpsScripts.Zabbix.Nimble
import OpsScripts.Zabbix.Listings
import OpsScripts.Zabbix.TaskNames
import OpsScripts.Veeam.Status
import OpsScripts.Veeam.Tasks
import OpsScripts.Veeam.SyncResult
import OpsScripts.Veeam.Discovery
import OpsScripts.Veeam.ExportRun
import OpsScripts.Catalogue.Serving
import OpsScripts.Core.Calendar
import OpsScripts.Core.OpenPlaces
import OpsScripts.ActiveDirectory.GpoBackups
import OpsScripts.ActiveDirectory.GroupRemove
import OpsScripts.Desktop.Shortcuts
import OpsScripts.Core.Markup
import OpsScripts.Zabbix.Webhook
import OpsScripts.Veeam.Counts
